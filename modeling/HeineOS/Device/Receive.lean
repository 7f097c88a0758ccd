import HeineOS.Device.Sections

/-! What the receive lock guards, stage by stage, and the ring that the card fills meanwhile: where its packets are,
and that the driver goes from one to the next. -/
namespace HeineOS.Rtl8139
open Lib

section Positions

theorem position_snoc (ps : List Packet) (p : Packet) : position (ps ++ [p]) = nextOffset (position ps) p.length := by
  rw [position,List.foldl_append]
  rfl

theorem nextOffset_lt (offset length : Nat) : nextOffset offset length < 8192 := Nat.mod_lt _ (by decide)

theorem nextOffset_aligned (offset length : Nat) : nextOffset offset length % 4 = 0 := by
  rw [nextOffset]
  omega

/-- Offsets are in the ring and aligned. -/
theorem position_bound (ps : List Packet) : position ps < 8192 ∧ position ps % 4 = 0 := by
  rcases List.eq_nil_or_concat ps with rfl | ⟨ps,p,rfl⟩
  · exact ⟨by decide,rfl⟩
  · rw [List.concat_eq_append,position_snoc]
    exact ⟨nextOffset_lt _ _,nextOffset_aligned _ _⟩

/-- The packet moves the offset, but not around the whole ring. -/
theorem nextOffset_ne {offset length : Nat} (ha : offset % 4 = 0) (hl : length ≤ 1518) :
    nextOffset offset length ≠ offset := by
  rw [nextOffset]
  omega

/-- The card takes back what the driver subtracts. -/
theorem decodeCapr_offset {offset : Nat} (ho : offset < 8192) : decodeCapr (BitVec.ofNat 16 offset - 16) = offset := by
  have h16 : (16 : BitVec 16).toNat = 16 := rfl
  rw [decodeCapr,BitVec.toNat_sub,BitVec.toNat_ofNat,h16]
  omega

end Positions

namespace Packet
variable (p : Packet)

theorem length_le : p.length ≤ 1518 := by
  have h := p.payload_le
  rw [length]
  omega

theorem length_bytes : p.bytes.length = 4 + p.length := by
  rw [bytes,List.length_append,List.length_append,p.crc_length,length,header]
  simp only [List.length_cons, List.length_nil]
  omega

/-- The header as the driver reads it. -/
def headerWord : BitVec 32 := BitVec.ofNat 32 (p.status + 65536 * p.length)

theorem headerWord_toNat : p.headerWord.toNat = p.status + 65536 * p.length := by
  have hs := p.status_lt
  have hl := p.length_le
  rw [headerWord,BitVec.toNat_ofNat]
  omega

theorem headerWord_rok : p.headerWord.getLsbD 0 = true := by
  have hodd : (p.status + 65536 * p.length) % 2 = 1 := by
    have hr := p.rok
    omega
  rw [BitVec.getLsbD,headerWord_toNat,Nat.testBit_zero,hodd]
  rfl

theorem headerWord_length : (p.headerWord >>> 16).toNat = p.length := by
  have hs := p.status_lt
  rw [BitVec.toNat_ushiftRight,headerWord_toNat,Nat.shiftRight_eq_div_pow]
  omega

end Packet

/-- The first `n` of the bytes are in memory from `a` on. -/
def Holds (memory : Bytes) (a : Nat) (bytes : List UInt8) (n : Nat) : Prop :=
  ∀ i, i < n → bytes[i]? = some (memory (a + i))

namespace Holds
variable {memory : Bytes} {a n : Nat} {bytes : List UInt8} {p : Packet}

/-- A byte elsewhere is written. -/
theorem update (h : Holds memory a bytes n) {x : Nat} (hx : ¬ (a ≤ x ∧ x < a + n)) (b : UInt8) :
    Holds (Function.update memory x b) a bytes n := by
  intro i hi
  have hne : a + i ≠ x := by omega
  rw [Function.update_of_ne hne]
  exact h i hi

/-- The next byte is written. -/
theorem snoc (h : Holds memory a bytes n) {b : UInt8} (hb : bytes[n]? = some b) :
    Holds (Function.update memory (a + n) b) a bytes (n + 1) := by
  intro i hi
  rcases Nat.lt_succ_iff_lt_or_eq.mp hi with hi | rfl
  · have hne : a + i ≠ a + n := by omega
    rw [Function.update_of_ne hne]
    exact h i hi
  · rw [Function.update_self]
    exact hb

theorem load_header (h : Holds memory a p.bytes p.bytes.length) :
    memory.load a 4 = p.status + 65536 * p.length := by
  have hlen : p.bytes.length = 4 + p.length := p.length_bytes
  have hcell : ∀ i b, i < 4 → p.header[i]? = some b → memory (a + i) = b := by
    intro i b hi hb
    have hm := h i (by omega)
    have hh : p.bytes[i]? = p.header[i]? := by
      rw [Packet.bytes,List.append_assoc]
      exact List.getElem?_append_left hi
    rw [hh,hb] at hm
    exact (Option.some.inj hm).symm
  have h0 := hcell 0 _ (by decide) rfl
  have h1 := hcell 1 _ (by decide) rfl
  have h2 := hcell 2 _ (by decide) rfl
  have h3 := hcell 3 _ (by decide) rfl
  have hs := p.status_lt
  have hl := p.length_le
  simp only [Bytes.load, Nat.add_assoc, Nat.reduceAdd, h1, h2, h3]
  rw [Nat.add_zero] at h0
  rw [h0]
  simp only [UInt8.toNat_ofNat']
  omega

theorem payload (h : Holds memory a p.bytes p.bytes.length) :
    (List.range p.payload.length).map (fun i => memory (a + 4 + i)) = p.payload := by
  have hlen : p.bytes.length = 4 + p.length := p.length_bytes
  apply List.ext_getElem?
  intro i
  by_cases hi : i < p.payload.length
  · rw [List.getElem?_map,List.getElem?_range hi]
    have hm := h (4 + i) (by rw [hlen,Packet.length]; omega)
    have hp : p.bytes[4 + i]? = p.payload[i]? := by
      rw [Packet.bytes,List.append_assoc,List.getElem?_append_right (Nat.le_add_right 4 i)]
      have hsub : 4 + i - p.header.length = i := Nat.add_sub_cancel_left 4 i
      rw [hsub,List.getElem?_append_left hi]
    rw [← hp,hm,← Nat.add_assoc]
    rfl
  · rw [List.getElem?_eq_none (by rw [List.length_map,List.length_range]; omega),List.getElem?_eq_none (by omega)]

end Holds

namespace RxRing
variable {ring ring' : RxRing} {k : Nat} {p : Packet}

/-- The packets that are not released are in memory, and so is what is written of the next one. -/
structure Ok (ring : RxRing) : Prop where
  released : ring.released ≤ ring.packets.length
  stored : ∀ k p, ring.released ≤ k → ring.packets[k]? = some p →
    Holds ring.memory (ring.start k) p.bytes p.bytes.length
  writing : ∀ p n, ring.writing = some (p,n) → n ≤ p.bytes.length ∧ Holds ring.memory (position ring.packets) p.bytes n

theorem start_succ (hk : ring.packets[k]? = some p) : ring.start (k + 1) = nextOffset (ring.start k) p.length := by
  rw [start,List.take_add_one,hk]
  exact position_snoc _ _

theorem start_bound (k : Nat) : ring.start k < 8192 ∧ ring.start k % 4 = 0 := position_bound _

theorem not_mem_of_keeps {a : Nat} (h : ring.keeps a = false) (hk : ring.released ≤ k)
    (hp : ring.packets[k]? = some p) : ¬ (ring.start k ≤ a ∧ a < ring.start k + p.bytes.length) := by
  rintro ⟨h1,h2⟩
  have hlt : k < ring.packets.length := (List.getElem?_eq_some_iff.mp hp).1
  have hkeep : ring.keeps a = true := by
    apply List.any_eq_true.mpr
    refine ⟨k,List.mem_range.mpr hlt,?_⟩
    simp only [hp, Option.map_some, Option.elim_some, hk, h1, h2, decide_true, Bool.and_self]
  rw [hkeep] at h
  cases h

/-- The read pointer at the next packet releases one. -/
theorem release_next (hk : ring.packets[ring.released]? = some p) :
    (ring.release (ring.start (ring.released + 1))).released = ring.released + 1 := by
  have hlt : ring.released < ring.packets.length := (List.getElem?_eq_some_iff.mp hk).1
  have hne : ring.start ring.released ≠ ring.start (ring.released + 1) := by
    rw [start_succ hk]
    exact (nextOffset_ne (start_bound _).2 p.length_le).symm
  obtain ⟨n,hn⟩ : ∃ n, ring.packets.length - ring.released = n + 1 :=
    Nat.exists_eq_add_one_of_ne_zero (by omega)
  simp only [release]
  rw [hn,List.range_succ_eq_map,List.takeWhile_cons]
  simp only [Nat.add_zero, bne_iff_ne.mpr hne, if_true, List.length_cons]
  have hstop : ((List.range n).map Nat.succ).takeWhile
      (fun i => ring.start (ring.released + i) != ring.start (ring.released + 1)) = [] := by
    cases n with
    | zero => rfl
    | succ n =>
      rw [List.range_succ_eq_map,List.map_cons,List.takeWhile_cons]
      simp only [Nat.succ_eq_add_one, Nat.zero_add, bne_self_eq_false, Bool.false_eq_true, if_false]
  rw [hstop]
  rfl

/-- The ring goes on by itself: it writes more, and releases nothing. -/
structure Grows (ring ring' : RxRing) : Prop where
  ok : ring'.Ok
  released : ring'.released = ring.released
  readPointer : ring'.readPointer = ring.readPointer
  packets : ∃ more, ring'.packets = ring.packets ++ more

theorem Grows.start (h : Grows ring ring') (hk : k ≤ ring.packets.length) : ring'.start k = ring.start k := by
  obtain ⟨more,hm⟩ := h.packets
  rw [RxRing.start,hm,List.take_append_of_le_length hk]
  rfl

theorem Grows.get (h : Grows ring ring') (hp : ring.packets[k]? = some p) : ring'.packets[k]? = some p := by
  obtain ⟨more,hm⟩ := h.packets
  rw [hm,List.getElem?_append_left (List.getElem?_eq_some_iff.mp hp).1]
  exact hp

theorem Grows.length (h : Grows ring ring') : ring.packets.length ≤ ring'.packets.length := by
  obtain ⟨more,hm⟩ := h.packets
  rw [hm,List.length_append]
  exact Nat.le_add_right _ _

theorem Grows.take (h : Grows ring ring') (hk : k ≤ ring.packets.length) :
    ring'.packets.take k = ring.packets.take k := by
  obtain ⟨more,hm⟩ := h.packets
  rw [hm,List.take_append_of_le_length hk]

theorem Ok.rewrite (h : ring.Ok) (writing : Option (Packet × Nat))
    (hw : ∀ p n, writing = some (p,n) → n ≤ p.bytes.length ∧ Holds ring.memory (position ring.packets) p.bytes n) :
    Grows ring { ring with writing } :=
  ⟨⟨h.released,h.stored,hw⟩,rfl,rfl,[],(List.append_nil _).symm⟩

/-- A byte of the next packet is written. -/
theorem Ok.write (h : ring.Ok) {n : Nat} {b : UInt8} (hw : ring.writing = some (p,n)) (hb : p.bytes[n]? = some b)
    (hk : ring.keeps (position ring.packets + n) = false) :
    Grows ring { ring with
      memory := Function.update ring.memory (position ring.packets + n) b
      writing := some (p,n + 1) } := by
  refine ⟨⟨h.released,?_,?_⟩,rfl,rfl,[],(List.append_nil _).symm⟩
  · intro k p' hk' hp'
    exact (h.stored k p' hk' hp').update (not_mem_of_keeps hk hk' hp') b
  · rintro p' n' hw'
    obtain ⟨rfl,rfl⟩ := Prod.mk.inj (Option.some.inj hw')
    exact ⟨(List.getElem?_eq_some_iff.mp hb).1,(h.writing p n hw).2.snoc hb⟩

/-- The next packet is complete. -/
theorem Ok.done (h : ring.Ok) {n : Nat} (hw : ring.writing = some (p,n)) (hb : p.bytes[n]? = none) :
    Grows ring { ring with packets := ring.packets ++ [p], writing := none } := by
  obtain ⟨hn,hholds⟩ := h.writing p n hw
  have hlen : n = p.bytes.length := Nat.le_antisymm hn (List.getElem?_eq_none_iff.mp hb)
  subst hlen
  refine ⟨⟨?_,?_,fun _ _ hw' => nomatch hw'⟩,rfl,rfl,[p],rfl⟩
  · rw [List.length_append]
    exact h.released.trans (Nat.le_add_right _ _)
  · intro k p' hk hp'
    change (ring.packets ++ [p])[k]? = some p' at hp'
    change Holds ring.memory (position ((ring.packets ++ [p]).take k)) p'.bytes p'.bytes.length
    by_cases hlt : k < ring.packets.length
    · rw [List.getElem?_append_left hlt] at hp'
      rw [List.take_append_of_le_length hlt.le]
      exact h.stored k p' hk hp'
    · have hkl : k = ring.packets.length := by
        have hlt' := (List.getElem?_eq_some_iff.mp hp').1
        rw [List.length_append,List.length_singleton] at hlt'
        omega
      subst hkl
      rw [List.getElem?_concat_length] at hp'
      obtain rfl := Option.some.inj hp'
      rw [List.take_left]
      exact hholds

end RxRing

/-- The receive side of the driver and of the card. -/
structure RxPart where
  rx : RxState
  ring : RxRing
  taken : List (List UInt8)
  delivered : Nat

def Shared.rxPart (s : Shared) : RxPart := ⟨s.rx,s.ring,s.history.taken,s.history.delivered⟩

namespace RxPart

/-- The first `n` packets were taken, in order, and each of them was delivered, is queued or was dropped. -/
structure Wf (t : RxPart) (n : Nat) : Prop where
  queue : t.rx.rxQueue.Wf
  ring : t.ring.Ok
  bound : n ≤ t.ring.packets.length
  taken : t.taken = (t.ring.packets.take n).map Packet.payload
  count : t.taken.length = t.delivered + t.rx.rxQueue.size + t.rx.rxQueue.droppedPackets

/-- The driver and the card agree on the offset of the next packet. -/
structure Agrees (t : RxPart) : Prop where
  offset : t.rx.rxReadOffset = t.ring.start t.ring.released
  pointer : t.ring.readPointer = t.rx.rxReadOffset

/-- The next packet, at its offset. -/
structure Located (t : RxPart) (offset : Nat) : Prop where
  wf : t.Wf t.ring.released
  agrees : t.Agrees
  filled : t.ring.released < t.ring.packets.length
  offset : offset = t.rx.rxReadOffset

def HeaderOf (t : RxPart) (header : BitVec 32) : Prop :=
  ∃ p, t.ring.packets[t.ring.released]? = some p ∧ header = p.headerWord

def At (t : RxPart) : RxStage → Prop
  | .held => t.Wf t.ring.released ∧ t.Agrees
  | .filled => t.Located t.rx.rxReadOffset
  | .located offset => t.Located offset
  | .read offset header => t.Located offset ∧ t.HeaderOf header
  | .stored offset header => t.Wf (t.ring.released + 1) ∧ t.Agrees ∧ offset = t.rx.rxReadOffset ∧ t.HeaderOf header
  | .advanced offset =>
    t.Wf (t.ring.released + 1) ∧ offset = t.rx.rxReadOffset ∧ offset = t.ring.start (t.ring.released + 1)

variable {t : RxPart} {offset : Nat} {header : BitVec 32}

/-- The ring goes on. -/
theorem At.grow {g : RxStage} (h : t.At g) {ring : RxRing} (hr : t.ring.Grows ring) : At { t with ring } g := by
  have hwf : ∀ {n}, t.Wf n → Wf { t with ring } n := by
    intro n h
    refine ⟨h.queue,hr.ok,h.bound.trans hr.length,?_,h.count⟩
    change t.taken = (ring.packets.take n).map _
    rw [hr.take h.bound]
    exact h.taken
  have hwf' : ∀ {n}, t.Wf (t.ring.released + n) → Wf { t with ring } (ring.released + n) := by
    intro n h
    rw [hr.released]
    exact hwf h
  have hagrees : ∀ {n}, t.Wf n → t.Agrees → Agrees { t with ring } := by
    intro n hn h
    refine ⟨?_,hr.readPointer.trans h.pointer⟩
    change t.rx.rxReadOffset = ring.start ring.released
    rw [hr.released,hr.start hn.ring.released]
    exact h.offset
  have hlocated : ∀ {offset}, t.Located offset → Located { t with ring } offset := by
    intro offset h
    refine ⟨?_,hagrees h.wf h.agrees,?_,h.offset⟩
    · exact @hwf' 0 h.wf
    · change ring.released < ring.packets.length
      rw [hr.released]
      exact h.filled.trans_le hr.length
  have hheader : ∀ {header}, t.HeaderOf header → HeaderOf { t with ring } header := by
    rintro header ⟨p,hp,rfl⟩
    refine ⟨p,?_,rfl⟩
    change ring.packets[ring.released]? = some p
    rw [hr.released]
    exact hr.get hp
  cases g with
  | held => exact ⟨@hwf' 0 h.1,hagrees h.1 h.2⟩
  | filled => exact hlocated h
  | located offset => exact hlocated h
  | read offset header => exact ⟨hlocated h.1,hheader h.2⟩
  | stored offset header => exact ⟨hwf' h.1,hagrees h.1 h.2.1,h.2.2.1,hheader h.2.2.2⟩
  | advanced offset =>
    refine ⟨hwf' h.1,h.2.1,?_⟩
    change offset = ring.start (ring.released + 1)
    rw [hr.released,hr.start h.1.bound]
    exact h.2.2

theorem At.fill (h : t.At .held) (he : t.ring.bufferEmpty = false) : t.At .filled := by
  refine ⟨h.1,h.2,?_,rfl⟩
  exact Nat.lt_of_le_of_ne h.1.ring.released (beq_eq_false_iff_ne.mp he)

/-- The header of the next packet is read, and its payload is in the buffer. -/
theorem At.read (h : t.At (.located offset)) :
    offset + 3 < rxBufferSize ∧ (BitVec.ofNat 32 (t.ring.memory.load offset 4)).getLsbD 0 = true ∧
      offset + 4 + ((BitVec.ofNat 32 (t.ring.memory.load offset 4) >>> 16).toNat - 4) ≤ rxBufferSize ∧
      t.At (.read offset (BitVec.ofNat 32 (t.ring.memory.load offset 4))) := by
  have hloc : t.Located offset := h
  obtain ⟨p,hp⟩ : ∃ p, t.ring.packets[t.ring.released]? = some p := ⟨_,List.getElem?_eq_getElem hloc.filled⟩
  have hstart : offset = t.ring.start t.ring.released := hloc.offset.trans hloc.agrees.offset
  have hholds := hloc.wf.ring.stored _ p (Nat.le_refl _) hp
  rw [← hstart] at hholds
  have hheader : BitVec.ofNat 32 (t.ring.memory.load offset 4) = p.headerWord := by
    rw [hholds.load_header]
    rfl
  obtain ⟨hlt,ha⟩ := @RxRing.start_bound t.ring t.ring.released
  rw [← hstart] at hlt ha
  have hlen := p.length_le
  rw [hheader,p.headerWord_length,rxBufferSize]
  exact ⟨by omega,p.headerWord_rok,by omega,hloc,p,hp,rfl⟩

/-- A good packet goes through `push`, which keeps it or counts it. -/
theorem Wf.push {n : Nat} (h : t.Wf n) {p : Packet} (hp : t.ring.packets[n]? = some p) :
    ∃ q, t.rx.rxQueue.push p.payload = some q ∧
      Wf { t with rx := { t.rx with rxQueue := q }, taken := t.taken ++ [p.payload] } (n + 1) := by
  have hlt : n < t.ring.packets.length := (List.getElem?_eq_some_iff.mp hp).1
  have htaken : t.taken ++ [p.payload] = (t.ring.packets.take (n + 1)).map Packet.payload := by
    rw [List.take_add_one,hp,List.map_append,← h.taken]
    rfl
  have hcount : (t.taken ++ [p.payload]).length = t.taken.length + 1 := List.length_append
  by_cases hs : t.rx.rxQueue.size < queueCapacity
  · obtain ⟨q,hq,hwf,_,hsize,hdropped⟩ := h.queue.push_fits hs (p.payload_le.trans (by decide))
    refine ⟨q,hq,hwf,h.ring,hlt,htaken,?_⟩
    change (t.taken ++ [p.payload]).length = t.delivered + q.size + q.droppedPackets
    rw [hcount,h.count,hsize,hdropped]
    omega
  · have hfull : t.rx.rxQueue.size = queueCapacity := Nat.le_antisymm h.queue.size (Nat.not_lt.mp hs)
    refine ⟨_,PacketQueue.push_drops (.inl hfull),?_,h.ring,hlt,htaken,?_⟩
    · exact h.queue.dropped _
    · change (t.taken ++ [p.payload]).length = t.delivered + t.rx.rxQueue.size + (t.rx.rxQueue.droppedPackets + 1)
      rw [hcount,h.count]
      omega

/-- The slice between the header and the checksum is the payload. -/
theorem At.slice (h : t.At (.read offset header)) :
    offset + 4 + ((header >>> 16).toNat - 4) ≤ rxBufferSize ∧
      ∃ p, t.ring.packets[t.ring.released]? = some p ∧
        (List.range (offset + 4 + ((header >>> 16).toNat - 4) - (offset + 4))).map
          (fun i => t.ring.memory (offset + 4 + i)) = p.payload := by
  obtain ⟨hloc,p,hp,rfl⟩ := h
  have hstart : offset = t.ring.start t.ring.released := hloc.offset.trans hloc.agrees.offset
  have hholds := hloc.wf.ring.stored _ p (Nat.le_refl _) hp
  rw [← hstart] at hholds
  obtain ⟨hlt,ha⟩ := @RxRing.start_bound t.ring t.ring.released
  rw [← hstart] at hlt ha
  have hlen := p.length_le
  refine ⟨?_,p,hp,?_⟩
  · rw [p.headerWord_length,rxBufferSize]
    omega
  · rw [p.headerWord_length,Nat.add_sub_cancel_left,Packet.length,Nat.add_sub_cancel]
    exact hholds.payload

theorem At.push (h : t.At (.read offset header)) :
    ∃ packet q, offset + 4 + ((header >>> 16).toNat - 4) ≤ rxBufferSize ∧
      (List.range (offset + 4 + ((header >>> 16).toNat - 4) - (offset + 4))).map
        (fun i => t.ring.memory (offset + 4 + i)) = packet ∧
      t.rx.rxQueue.push packet = some q ∧
      At { t with rx := { t.rx with rxQueue := q }, taken := t.taken ++ [packet] } (.stored offset header) := by
  obtain ⟨hend,p,hp,hslice⟩ := h.slice
  obtain ⟨hloc,hheader⟩ := h
  obtain ⟨q,hq,hwf⟩ := hloc.wf.push hp
  exact ⟨p.payload,q,hend,hslice,hq,hwf,⟨hloc.agrees.offset,hloc.agrees.pointer⟩,hloc.offset,hheader⟩

private theorem Wf.advance {next : Nat} (h : t.Wf (t.ring.released + 1))
    (hn : next = t.ring.start (t.ring.released + 1)) :
    At { t with rx := { t.rx with rxReadOffset := next } } (.advanced next) :=
  ⟨⟨h.queue,h.ring,h.bound,h.taken,h.count⟩,rfl,hn⟩

theorem At.advance (h : t.At (.stored offset header)) :
    At { t with rx := { t.rx with rxReadOffset := nextOffset offset (header >>> 16).toNat } }
      (.advanced (nextOffset offset (header >>> 16).toNat)) := by
  obtain ⟨hwf,hagrees,hoffset,p,hp,hheader⟩ := h
  apply hwf.advance
  rw [RxRing.start_succ hp,hheader,p.headerWord_length,hoffset,hagrees.offset]

/-- The card releases the packet and nothing else. -/
theorem At.capr (h : t.At (.advanced offset)) :
    At { t with ring := t.ring.release (decodeCapr (BitVec.ofNat 16 offset - 16)) } .held := by
  obtain ⟨hwf,hoffset,hstart⟩ := h
  have hlt : offset < 8192 := by
    rw [hstart]
    exact (RxRing.start_bound _).1
  obtain ⟨p,hp⟩ : ∃ p, t.ring.packets[t.ring.released]? = some p := ⟨_,List.getElem?_eq_getElem hwf.bound⟩
  rw [decodeCapr_offset hlt,hstart]
  have hrel := RxRing.release_next hp
  refine ⟨⟨hwf.queue,⟨?_,?_,hwf.ring.writing⟩,?_,?_,hwf.count⟩,?_,?_⟩
  · rw [hrel]
    exact hwf.bound
  · intro k p' hk hp'
    rw [hrel] at hk
    exact hwf.ring.stored k p' (by omega) hp'
  · change (t.ring.release _).released ≤ _
    rw [hrel]
    exact hwf.bound
  · change t.taken = (t.ring.packets.take (t.ring.release _).released).map _
    rw [hrel]
    exact hwf.taken
  · change t.rx.rxReadOffset = t.ring.start (t.ring.release _).released
    rw [hrel,← hoffset]
    exact hstart
  · change t.ring.start (t.ring.released + 1) = t.rx.rxReadOffset
    rw [← hoffset]
    exact hstart.symm

/-- A thread takes the oldest packet. -/
theorem At.pop (h : t.At .held) :
    ∃ frame q, t.rx.rxQueue.pop = some (frame,q) ∧
      At { t with rx := { t.rx with rxQueue := q }, delivered := t.delivered + frame.elim 0 fun _ => 1 } .held := by
  obtain ⟨hwf,hagrees⟩ := h
  by_cases hs : t.rx.rxQueue.size = 0
  · exact ⟨none,_,PacketQueue.pop_empty hs,hwf,hagrees⟩
  · obtain ⟨frame,q,hp,_,hq,_,hsize,hdropped⟩ := hwf.queue.pop_oldest (Nat.pos_of_ne_zero hs)
    refine ⟨some frame,q,hp,⟨hq,hwf.ring,hwf.bound,hwf.taken,?_⟩,hagrees.offset,hagrees.pointer⟩
    change t.taken.length = t.delivered + 1 + q.size + q.droppedPackets
    rw [hwf.count,hsize,hdropped]
    omega

end RxPart

end HeineOS.Rtl8139
