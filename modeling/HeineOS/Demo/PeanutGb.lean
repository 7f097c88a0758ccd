import HeineOS.Device.Clipping
import HeineOS.Device.KeyEvents
import HeineOS.Lib.Controller
import HeineOS.Lib.System

/-! The frontend of the Game Boy emulator: it shows the lines that the emulator draws, and turns key events into the
joypad that the emulator reads. -/
namespace HeineOS.PeanutGb
open Lib

inductive JoypadButton where
  | a
  | b
  | select
  | start
  | right
  | left
  | up
  | down
  deriving DecidableEq, Repr

def JoypadButton.mask : JoypadButton → BitVec 8
  | a => 0x01
  | b => 0x02
  | select => 0x04
  | start => 0x08
  | right => 0x10
  | left => 0x20
  | up => 0x40
  | down => 0x80

def GB_SCREEN_RES : Nat × Nat := (160,144)

def X_OFFSET : Nat := 192
def Y_OFFSET : Nat := 96
def SCALE : Nat := 3

def PALETTE : List Nat := [0xe0f8d0,0x88c070,0x346856,0x081820]

/-- What the emulator passes for a line of its screen. -/
structure Line where
  number : Nat
  pixels : List UInt8
  number_lt : number < GB_SCREEN_RES.2
  length_eq : pixels.length = GB_SCREEN_RES.1

/-- Only the lowest two bits of a pixel count. -/
def colour (pixel : UInt8) : Option Nat := PALETTE[(pixel &&& 0x3).toNat]?

/-- Every pixel becomes a square of the screen. There is no result if a colour is missing in the palette. -/
def lcdDrawLine (fb : Framebuffer) (line : Line) (m : Bytes) : Option Bytes :=
  line.pixels.zipIdx.foldlM (fun m (pixel,i) =>
    (colour pixel).map fun colour =>
      (List.range SCALE).foldl (fun m xPos =>
        (List.range SCALE).foldl (fun m yPos =>
          fb.drawPixelUnchecked m (i * SCALE + xPos + X_OFFSET) (line.number * SCALE + yPos + Y_OFFSET) colour) m) m) m

def mappedButton : Scancode → Option JoypadButton
  | .w => some .up
  | .a => some .left
  | .s => some .down
  | .d => some .right
  | .q => some .select
  | .e => some .start
  | .enter => some .a
  | .space => some .b
  | _ => none

/-- What an event does to the joypad. There is no result for the key that ends the game. -/
def handle (joypad : BitVec 8) (key : KeyEvent) : Option (BitVec 8) :=
  match key.scancode with
  | none => some joypad
  | some .escape => none
  | some code =>
    match mappedButton code with
    | none => some joypad
    | some button => some (if key.pressed then joypad &&& ~~~button.mask else joypad ||| button.mask)

/-- The emulator runs a frame, up to `left` more events are looked at after it, the game is over, or the kernel has
panicked over a closed queue. -/
inductive Phase where
  | frame
  | input (left : Nat)
  | gameOver
  | panicked
  deriving DecidableEq, Repr

/-- The screen, the joypad and the queue. What the queue has accepted, what has been taken from it, and the pixels that
each line was last drawn with are kept as well. -/
structure State (Q : Type) where
  memory : Bytes
  joypad : BitVec 8
  queue : Q
  phase : Phase
  accepted : List KeyEvent
  taken : List KeyEvent
  shown : Nat → Option (List UInt8)

/-- The emulator draws a line or ends its frame, the loop goes on, or a key event arrives. -/
inductive Label where
  | line (line : Line)
  | frameDone
  | event
  | key (key : KeyEvent)

section
variable {Q : Type} (S : BoundedQueue Q KeyEvent)

def step (fb : Framebuffer) (s : State Q) : Label → Option (State Q)
  | .line line =>
    if s.phase = .frame then
      (lcdDrawLine fb line s.memory).map fun memory =>
        { s with memory, shown := Function.update s.shown line.number (some line.pixels) }
    else none
  | .frameDone => if s.phase = .frame then some { s with phase := .input 3 } else none
  | .event =>
    match s.phase with
    | .input 0 => some { s with phase := .frame }
    | .input (left + 1) =>
      match KeyEventQueue.popKeyEvent S s.queue with
      | none => some { s with phase := .panicked }
      | some (none,queue) => some { s with queue, phase := .frame }
      | some (some key,queue) =>
        match handle s.joypad key with
        | none => some { s with queue, phase := .gameOver, taken := s.taken ++ [key] }
        | some joypad => some { s with queue, joypad, phase := .input left, taken := s.taken ++ [key] }
    | _ => none
  | .key key =>
    match KeyEventQueue.pushKeyEvent S s.queue key with
    | none => some { s with phase := .panicked }
    | some queue => some { s with
        queue
        accepted := if (S.tryEnqueue s.queue key).1 then s.accepted ++ [key] else s.accepted }

/-- The emulator starts with no button pressed. Events may be waiting already. -/
def system (Holds : Q → List KeyEvent → Prop) (fb : Framebuffer) (m : Bytes) : System (State Q) Label where
  init s := s.memory = m ∧ s.joypad = 0xff ∧ s.phase = .frame ∧ Holds s.queue s.accepted ∧ s.taken = [] ∧
    s.shown = fun _ => none
  step s label s' := step S fb s label = some s'

end

/-- A button is held if the last event of its key was a press. -/
def held (events : List KeyEvent) (button : JoypadButton) : Bool :=
  ((events.filter fun key => key.scancode.bind mappedButton = some button).getLast?).any KeyEvent.pressed

section Screen
variable {fb : Framebuffer} {m m' : Bytes} {line : Line}

/-- The pixels of the screen that a line is drawn with. -/
private def squares (line : Line) : List (Nat × Nat × Nat) :=
  line.pixels.zipIdx.flatMap fun p => (List.range SCALE).flatMap fun xPos => (List.range SCALE).map fun yPos =>
    (p.2 * SCALE + xPos + X_OFFSET,line.number * SCALE + yPos + Y_OFFSET,(colour p.1).getD 0)

theorem colour_spec (pixel : UInt8) : ∃ c, colour pixel = some c ∧ c < 2^32 := by
  have hall : (PALETTE.all fun c => decide (c < 2^32)) = true := by decide
  have hlt : (pixel &&& 0x3).toNat < PALETTE.length := by
    have hmask : (pixel &&& 0x3).toNat ≤ (0x3 : UInt8).toNat := by
      rw [UInt8.toNat_and]
      exact Nat.and_le_right
    exact Nat.lt_succ_of_le hmask
  refine ⟨PALETTE[(pixel &&& 0x3).toNat],List.getElem?_eq_getElem hlt,?_⟩
  exact of_decide_eq_true (List.all_eq_true.mp hall _ (List.getElem_mem hlt))

private theorem lcdDrawLine_eq : lcdDrawLine fb line m =
    some ((squares line).foldl (fun m (px,py,pixel) => fb.drawPixelUnchecked m px py pixel) m) := by
  rw [lcdDrawLine,squares]
  generalize line.pixels.zipIdx = pixels
  induction pixels generalizing m with
  | nil => rfl
  | cons p pixels ih =>
    obtain ⟨c,hc,-⟩ := colour_spec p.1
    rw [List.foldlM_cons,List.flatMap_cons,List.foldl_append]
    simp only [hc, Option.map_some, Option.getD_some, Option.bind_eq_bind, Option.bind_some]
    rw [ih]
    simp only [List.foldl_flatMap, List.foldl_map]

private theorem mem_squares {p : Nat × Nat × Nat} :
    p ∈ squares line ↔ ∃ i xPos yPos, ∃ pixel : UInt8, line.pixels[i]? = some pixel ∧ xPos < 3 ∧ yPos < 3 ∧
      p = (3 * i + xPos + 192,3 * line.number + yPos + 96,(colour pixel).getD 0) := by
  simp only [squares, List.mem_flatMap, List.mem_map, List.mem_range, SCALE, X_OFFSET, Y_OFFSET]
  constructor
  · rintro ⟨⟨pixel,i⟩,hi,xPos,hx,yPos,hy,rfl⟩
    refine ⟨i,xPos,yPos,pixel,List.mk_mem_zipIdx_iff_getElem?.mp hi,hx,hy,?_⟩
    rw [Nat.mul_comm i,Nat.mul_comm line.number]
  · rintro ⟨i,xPos,yPos,pixel,hi,hx,hy,rfl⟩
    refine ⟨(pixel,i),List.mk_mem_zipIdx_iff_getElem?.mpr hi,xPos,hx,yPos,hy,?_⟩
    rw [Nat.mul_comm i,Nat.mul_comm line.number]

/-- The window of the screen that the game is shown in. -/
def InWindow (column row : Nat) : Prop := 192 ≤ column ∧ column < 672 ∧ 96 ≤ row ∧ row < 528

instance (column row : Nat) : Decidable (InWindow column row) := inferInstanceAs (Decidable (_ ∧ _))

/-- The colour that the pixels of a line have in a column of the screen. -/
def columnColour (pixels : List UInt8) (column : Nat) : Nat :=
  ((pixels[(column - 192) / 3]?).bind colour).getD 0

/-- A line fills its three rows of the window, and leaves the other pixels alone. -/
private theorem lcdDrawLine_pixel (hpitch : 4 * fb.width ≤ fb.pitch) (hwidth : 672 ≤ fb.width)
    (h : lcdDrawLine fb line m = some m') {column row : Nat} (hcolumn : column < fb.width) :
    fb.pixel m' column row = if InWindow column row ∧ (row - 96) / 3 = line.number
      then columnColour line.pixels column else fb.pixel m column row := by
  rw [lcdDrawLine_eq] at h
  obtain rfl := Option.some.inj h
  have hpixels : ∀ p ∈ squares line, p.1 < fb.width ∧ p.2.2 = columnColour line.pixels p.1 ∧ p.2.2 < 2^32 := by
    intro p hp
    obtain ⟨i,xPos,yPos,pixel,hi,hx,-,rfl⟩ := mem_squares.mp hp
    obtain ⟨c,hc,hlt⟩ := colour_spec pixel
    have hlen := (List.getElem?_eq_some_iff.mp hi).1
    rw [line.length_eq,GB_SCREEN_RES] at hlen
    have hindex : (3 * i + xPos + 192 - 192) / 3 = i := by omega
    refine ⟨?_,?_,?_⟩
    · change 3 * i + xPos + 192 < fb.width
      omega
    · change (colour pixel).getD 0 = _
      rw [columnColour,hindex,hi]
      rfl
    · change (colour pixel).getD 0 < 2^32
      rw [hc]
      exact hlt
  have hwhere : (∃ p ∈ squares line, p.1 = column ∧ p.2.1 = row) ↔
      InWindow column row ∧ (row - 96) / 3 = line.number := by
    have hnumber := line.number_lt
    rw [GB_SCREEN_RES] at hnumber
    constructor
    · rintro ⟨p,hp,rfl,rfl⟩
      obtain ⟨i,xPos,yPos,pixel,hi,hx,hy,rfl⟩ := mem_squares.mp hp
      have hlen := (List.getElem?_eq_some_iff.mp hi).1
      rw [line.length_eq,GB_SCREEN_RES] at hlen
      dsimp only [InWindow] at *
      omega
    · rintro ⟨⟨h1,h2,h3,h4⟩,hrow⟩
      have hlen : (column - 192) / 3 < line.pixels.length := by
        rw [line.length_eq,GB_SCREEN_RES]
        omega
      refine ⟨_,mem_squares.mpr ⟨(column - 192) / 3,(column - 192) % 3,(row - 96) % 3,_,
        List.getElem?_eq_getElem hlen,Nat.mod_lt _ (by decide),Nat.mod_lt _ (by decide),rfl⟩,?_,?_⟩
      · change 3 * ((column - 192) / 3) + (column - 192) % 3 + 192 = column
        omega
      · change 3 * line.number + (row - 96) % 3 + 96 = row
        omega
  rw [Framebuffer.drawPixels_pixel (f := fun column _ => columnColour line.pixels column) hpitch hcolumn hpixels]
  exact if_congr hwhere rfl rfl

/-- The bytes of the window. -/
def WindowByte (fb : Framebuffer) (a : Nat) : Prop :=
  ∃ row b, 96 ≤ row ∧ row < 528 ∧ 4 * 192 ≤ b ∧ b < 4 * 672 ∧ a = fb.place row b

private theorem foldl_outside {pixels : List (Nat × Nat × Nat)} {a : Nat}
    (h : ∀ p ∈ pixels, ¬ (fb.place p.2.1 (4 * p.1) ≤ a ∧ a < fb.place p.2.1 (4 * p.1) + 4)) :
    pixels.foldl (fun m (px,py,pixel) => fb.drawPixelUnchecked m px py pixel) m a = m a := by
  induction pixels generalizing m with
  | nil => rfl
  | cons p pixels ih =>
    rw [List.forall_mem_cons] at h
    rw [List.foldl_cons,ih h.2]
    apply Bytes.store_of_not_mem
    have hout := h.1
    rw [Framebuffer.place,Nat.mul_comm 4] at hout
    exact hout

/-- A line is drawn into the window, even where the screen ends before it. -/
private theorem lcdDrawLine_outside (h : lcdDrawLine fb line m = some m') {a : Nat} (ha : ¬ WindowByte fb a) :
    m' a = m a := by
  rw [lcdDrawLine_eq] at h
  obtain rfl := Option.some.inj h
  apply foldl_outside
  rintro p hp ⟨hlow,hhigh⟩
  obtain ⟨i,xPos,yPos,pixel,hi,hx,hy,rfl⟩ := mem_squares.mp hp
  have hlen := (List.getElem?_eq_some_iff.mp hi).1
  have hnumber := line.number_lt
  rw [line.length_eq,GB_SCREEN_RES] at hlen
  rw [GB_SCREEN_RES] at hnumber
  dsimp only [Framebuffer.place] at hlow hhigh
  obtain ⟨k,rfl⟩ := Nat.exists_eq_add_of_le hlow
  have hk : k < 4 := Nat.lt_of_add_lt_add_left hhigh
  clear hlow hhigh
  refine ha ⟨3 * line.number + yPos + 96,4 * (3 * i + xPos + 192) + k,?_,?_,?_,?_,?_⟩
  · omega
  · omega
  · omega
  · omega
  · rw [Framebuffer.place,Nat.add_assoc,Nat.add_assoc]

end Screen

section Joypad
variable {joypad joypad' : BitVec 8} {key : KeyEvent} {events : List KeyEvent}

def JoypadButton.bit : JoypadButton → Nat
  | a => 0
  | b => 1
  | select => 2
  | start => 3
  | right => 4
  | left => 5
  | up => 6
  | down => 7

private theorem mask_eq (button : JoypadButton) : button.mask = 1#8 <<< button.bit := by cases button <;> rfl

private theorem bit_lt (button : JoypadButton) : button.bit < 8 := by cases button <;> decide

private theorem bit_inj {button button' : JoypadButton} : button.bit = button'.bit ↔ button = button' := by
  cases button <;> cases button' <;> decide

private theorem held_concat (button : JoypadButton) : held (events ++ [key]) button =
    if key.scancode.bind mappedButton = some button then key.pressed else held events button := by
  rw [held,List.filter_append]
  by_cases hkey : key.scancode.bind mappedButton = some button
  · simp [hkey]
  · simp [hkey, held]

/-- The keys that end the game. -/
def Ends (key : KeyEvent) : Prop := key.scancode = some .escape

/-- The joypad shows the buttons that are held. -/
def Shows (joypad : BitVec 8) (events : List KeyEvent) : Prop :=
  ∀ button : JoypadButton, joypad.getLsbD button.bit = !held events button

private theorem handle_none (h : handle joypad key = none) : Ends key := by
  rw [handle] at h
  split at h
  · cases h
  · assumption
  · split at h <;> cases h

/-- An event changes the bit of its button and no other one. -/
private theorem handle_some (hs : Shows joypad events) (h : handle joypad key = some joypad') :
    ¬ Ends key ∧ Shows joypad' (events ++ [key]) := by
  have hsame (hkey : key.scancode.bind mappedButton = none) : Shows joypad (events ++ [key]) := by
    intro button
    rw [held_concat,hkey,if_neg (by simp)]
    exact hs button
  rw [handle] at h
  split at h
  · rename_i hcode
    cases h
    refine ⟨?_,hsame (by rw [hcode]; rfl)⟩
    intro hends
    rw [Ends,hcode] at hends
    cases hends
  · cases h
  · rename_i code hescape hcode
    refine ⟨fun hends => hescape (Option.some.inj (hcode.symm.trans hends)),?_⟩
    split at h
    · rename_i hmap
      cases h
      exact hsame (by rw [hcode]; exact hmap)
    · rename_i button hmap
      obtain rfl := Option.some.inj h
      have hkey : key.scancode.bind mappedButton = some button := by
        rw [hcode]
        exact hmap
      intro button'
      rw [held_concat,hkey]
      by_cases hb : button = button'
      · subst hb
        rw [if_pos rfl]
        cases key.pressed with
        | true => rw [if_pos rfl,mask_eq,getLsbD_clear,if_pos rfl]; rfl
        | false => rw [if_neg Bool.false_ne_true,mask_eq,getLsbD_set _ (bit_lt button),if_pos rfl]; rfl
      · have hne : button'.bit ≠ button.bit := fun heq => hb (bit_inj.mp heq).symm
        rw [if_neg (fun heq => hb (Option.some.inj heq)),← hs button']
        cases key.pressed with
        | true => rw [if_pos rfl,mask_eq,getLsbD_clear,if_neg hne]
        | false => rw [if_neg Bool.false_ne_true,mask_eq,getLsbD_set _ (bit_lt button),if_neg hne]

end Joypad

/-- The colour of a pixel of the screen, by the lines that were shown last. -/
def screenPixel (fb : Framebuffer) (m : Bytes) (shown : Nat → Option (List UInt8)) (column row : Nat) : Nat :=
  if InWindow column row then
    ((shown ((row - 96) / 3)).map fun pixels => columnColour pixels column).getD (fb.pixel m column row)
  else fb.pixel m column row

structure Inv {Q : Type} (Holds : Q → List KeyEvent → Prop) (fb : Framebuffer) (m : Bytes) (s : State Q) : Prop where
  queue : ∃ waiting, Holds s.queue waiting ∧ s.accepted = s.taken ++ waiting
  joypad : Shows s.joypad s.taken
  calm : s.phase ≠ .panicked
  gameOver : s.phase = .gameOver ↔ ∃ key ∈ s.taken, Ends key
  ends : ∀ key ∈ s.taken.dropLast, ¬ Ends key
  pixels : ∀ column row, column < fb.width → fb.pixel s.memory column row = screenPixel fb m s.shown column row
  outside : ∀ a, ¬ WindowByte fb a → s.memory a = m a

section
variable {Q : Type} {S : BoundedQueue Q KeyEvent} {Holds : Q → List KeyEvent → Prop} {fb : Framebuffer} {m : Bytes}
  {s s' : State Q}

private theorem inv_init (h : (system S Holds fb m).init s) : Inv Holds fb m s := by
  obtain ⟨hmemory,hjoypad,hphase,haccepted,htaken,hshown⟩ := h
  constructor
  case queue =>
    refine ⟨s.accepted,haccepted,?_⟩
    rw [htaken]
    rfl
  case calm =>
    rw [hphase]
    exact Phase.noConfusion
  case joypad =>
    intro button
    rw [hjoypad,htaken]
    cases button <;> decide
  case gameOver =>
    rw [hphase,htaken]
    simp
  case ends =>
    rw [htaken]
    exact fun key hkey => absurd hkey List.not_mem_nil
  case pixels =>
    intro column row _
    rw [hmemory,hshown,screenPixel]
    split <;> rfl
  case outside => exact fun a _ => by rw [hmemory]

private theorem Inv.line (h : Inv Holds fb m s) (hpitch : 4 * fb.width ≤ fb.pitch) (hwidth : 672 ≤ fb.width) {line : Line}
    {memory : Bytes} (hdraw : lcdDrawLine fb line s.memory = some memory) :
    Inv Holds fb m { s with memory, shown := Function.update s.shown line.number (some line.pixels) } := by
  refine { h with pixels := fun column row hcolumn => ?_, outside := fun a ha => ?_ }
  · rw [lcdDrawLine_pixel hpitch hwidth hdraw hcolumn,h.pixels column row hcolumn,screenPixel,screenPixel]
    by_cases hin : InWindow column row
    · by_cases hrow : (row - 96) / 3 = line.number
      · rw [if_pos ⟨hin,hrow⟩,if_pos hin,hrow]
        dsimp only
        rw [Function.update_self]
        rfl
      · rw [if_neg (fun hboth => hrow hboth.2),if_pos hin,if_pos hin]
        dsimp only
        rw [Function.update_of_ne hrow]
    · rw [if_neg (fun hboth => hin hboth.1),if_neg hin,if_neg hin]
  · exact (lcdDrawLine_outside hdraw ha).trans (h.outside a ha)

/-- The next event is taken. -/
private theorem Inv.event (h : Inv Holds fb m s) (hphase : s.phase ≠ .gameOver) {key : KeyEvent}
    {waiting : List KeyEvent} (haccepted : s.accepted = s.taken ++ key :: waiting) {queue : Q}
    (hqueue : Holds queue waiting) {joypad : BitVec 8} {phase : Phase} (hcalm : phase ≠ .panicked)
    (hjoypad : Shows joypad (s.taken ++ [key])) (hend : phase = .gameOver ↔ Ends key) :
    Inv Holds fb m { s with queue, joypad, phase, taken := s.taken ++ [key] } := by
  have hbefore : ∀ key' ∈ s.taken, ¬ Ends key' := fun key' hkey' hends => hphase (h.gameOver.mpr ⟨key',hkey',hends⟩)
  refine { h with queue := ⟨waiting,hqueue,?_⟩, joypad := hjoypad, gameOver := ?_, ends := ?_, calm := hcalm }
  · rw [haccepted,List.append_assoc]
    rfl
  · rw [hend]
    constructor
    · exact fun hends => ⟨key,List.mem_append_right _ List.mem_cons_self,hends⟩
    · rintro ⟨key',hkey',hends⟩
      rcases List.mem_append.mp hkey' with hold | hnew
      · exact absurd hends (hbefore key' hold)
      · exact List.mem_singleton.mp hnew ▸ hends
  · intro key' hkey'
    rw [List.dropLast_concat] at hkey'
    exact hbefore key' hkey'

private theorem inv_step (hS : S.Fifo KeyEventQueue.capacity Holds) (hpitch : 4 * fb.width ≤ fb.pitch)
    (hwidth : 672 ≤ fb.width) {label : Label} (h : Inv Holds fb m s) (hs : step S fb s label = some s') :
    Inv Holds fb m s' := by
  have hplay {phase : Phase} (hphase : s.phase ≠ .gameOver) (hphase' : phase ≠ .gameOver) (hcalm : phase ≠ .panicked) :
      Inv Holds fb m { s with phase } :=
    { h with gameOver := iff_of_false hphase' (mt h.gameOver.mpr hphase), calm := hcalm }
  obtain ⟨waiting,hqueue,haccepted⟩ := h.queue
  cases label with
  | line line =>
    rw [step] at hs
    split at hs
    · obtain ⟨memory,hdraw,rfl⟩ := Option.map_eq_some_iff.mp hs
      exact h.line hpitch hwidth hdraw
    · cases hs
  | frameDone =>
    rw [step] at hs
    split at hs
    · rename_i hphase
      cases hs
      exact hplay (by rw [hphase]; decide) (by decide) (by decide)
    · cases hs
  | event =>
    rw [step] at hs
    split at hs
    · rename_i hphase
      cases hs
      exact hplay (by rw [hphase]; decide) (by decide) (by decide)
    · rename_i left hphase
      have hrunning : s.phase ≠ .gameOver := by
        intro habs
        rw [hphase] at habs
        cases habs
      cases waiting with
      | nil =>
        obtain ⟨queue,hpop,hqueue'⟩ := KeyEventQueue.popKeyEvent_empty hS hqueue
        rw [hpop] at hs
        cases hs
        have hframe : Inv Holds fb m { s with phase := .frame } := hplay hrunning (by decide) (by decide)
        exact { hframe with queue := ⟨[],hqueue',haccepted⟩ }
      | cons key waiting =>
        obtain ⟨queue,hpop,hqueue'⟩ := KeyEventQueue.popKeyEvent_cons hS hqueue
        rw [hpop] at hs
        dsimp only at hs
        split at hs
        · rename_i hends
          cases hs
          have hshows : Shows s.joypad (s.taken ++ [key]) := by
            intro button
            rw [held_concat,handle_none hends,if_neg (by simp [mappedButton])]
            exact h.joypad button
          exact h.event hrunning haccepted hqueue' (by decide) hshows (iff_of_true rfl (handle_none hends))
        · rename_i joypad hhandle
          cases hs
          obtain ⟨hstays,hshows⟩ := handle_some h.joypad hhandle
          refine h.event hrunning haccepted hqueue' Phase.noConfusion hshows (iff_of_false ?_ hstays)
          intro habs
          cases habs
    · cases hs
  | key key =>
    obtain ⟨hpush,-⟩ := KeyEventQueue.pushKeyEvent_eq hS hqueue key
    rw [step,hpush] at hs
    cases hs
    refine { h with queue := ?_ }
    by_cases hroom : waiting.length < KeyEventQueue.capacity
    · obtain ⟨haccept,hqueue'⟩ := hS.enqueue key hqueue hroom
      refine ⟨_,hqueue',?_⟩
      rw [if_pos haccept,haccepted,List.append_assoc]
    · obtain ⟨hrefuse,hqueue'⟩ := hS.full key hqueue (Nat.le_of_not_lt hroom)
      refine ⟨_,hqueue',?_⟩
      rw [if_neg (by rw [hrefuse]; exact Bool.false_ne_true)]
      exact haccepted

end

end HeineOS.PeanutGb
