import HeineOS.Library.Bitmap

/-! Which byte slices the BMP loader parses, and what it makes of the images among them. -/
namespace HeineOS.Bitmap
open Lib
variable {data : List UInt8}

/-! ### Sizes -/

/-- The words of a header fit their fields. -/
private theorem signedAt_bounds (data : List UInt8) (i : Nat) : -2^31 ≤ signedAt data i ∧ signedAt data i < 2^31 := by
  have hlt : unsignedAt data i 4 < 2^32 := unsignedAt_lt data i 4
  rw [signedAt]
  split <;> omega

/-- The bytes of the pixels in a row, for a width that is not negative. -/
def rowSize (header : BitmapFileHeader) : Nat := header.infoHeader.width.toNat * 3

/-- The bytes of a row in the file, a multiple of four. -/
def paddedRowSize (header : BitmapFileHeader) : Nat := (rowSize header + 3) / 4 * 4

private theorem rowSize_le (header : BitmapFileHeader) : rowSize header ≤ paddedRowSize header := by
  rw [paddedRowSize]
  omega

private theorem paddedRowSize_pos {header : BitmapFileHeader} (h : 0 < header.infoHeader.width) :
    0 < paddedRowSize header := by
  rw [paddedRowSize,rowSize]
  omega

/-! ### Slices that parse -/

/-- The header passes the checks of the loader. -/
def Accepted (data : List UInt8) : Prop :=
  (readHeader data).signature = [0x42,0x4d] ∧ (readHeader data).infoHeader.colorPlanes = 1 ∧
    (readHeader data).infoHeader.bitsPerPixel = 24

instance : Decidable (Accepted data) := inferInstanceAs (Decidable (_ ∧ _ ∧ _))

/-- The bytes from the data offset on are whole rows, but for the padding of the last one. -/
def WholeRows (data : List UInt8) : Prop :=
  let header := readHeader data
  header.dataOffset ≤ data.length ∧ ((data.length - header.dataOffset) % paddedRowSize header = 0 ∨
    rowSize header ≤ (data.length - header.dataOffset) % paddedRowSize header)

instance : Decidable (WholeRows data) := inferInstanceAs (Decidable (_ ∧ _))

/-- The loader comes to an answer. -/
def Parses (data : List UInt8) : Prop :=
  headerSize ≤ data.length ∧ (Accepted data → 0 < (readHeader data).infoHeader.width ∧ WholeRows data)

instance : Decidable (Parses data) := inferInstanceAs (Decidable (_ ∧ _))

/-- The pixels of the rows in the file. -/
def storedPixels (data : List UInt8) : List Nat :=
  let header := readHeader data
  ((chunks (paddedRowSize header) (data.drop header.dataOffset)).map fun row =>
    (triples (row.take (rowSize header))).map fun (b,g,r) => color r g b 0xff).flatten

private theorem mapM_rowPixels (n : Nat) (rows : List (List UInt8)) :
    rows.mapM (rowPixels n) = if ∀ row ∈ rows, n ≤ row.length then
      some (rows.map fun row => (triples (row.take n)).map fun (b,g,r) => color r g b 0xff) else none :=
  mapM_if _ rows

private theorem readRows_eq (hwidth : 0 < (readHeader data).infoHeader.width) :
    readRows data (readHeader data).dataOffset (rowSize (readHeader data)) (paddedRowSize (readHeader data)) =
      if WholeRows data then some (storedPixels data) else none := by
  have hpos := paddedRowSize_pos hwidth
  have hrows := forall_chunks_le_length hpos (rowSize_le (readHeader data)) (data.drop (readHeader data).dataOffset)
  rw [List.length_drop] at hrows
  rw [readRows,mapM_rowPixels]
  by_cases hoffset : (readHeader data).dataOffset ≤ data.length
  · rw [if_pos ⟨hoffset,by omega⟩]
    by_cases hwhole : WholeRows data
    · rw [if_pos hwhole,if_pos (hrows.mpr hwhole.2)]
      rfl
    · rw [if_neg hwhole,if_neg fun h => hwhole ⟨hoffset,hrows.mp h⟩]
      rfl
  · rw [if_neg fun h => hoffset h.1,if_neg fun h => hoffset h.1]

private theorem fromBytes_of_not_accepted (hlen : headerSize ≤ data.length) (h : ¬ Accepted data) :
    fromBytes data = some none := by
  rw [fromBytes,if_neg (by omega)]
  by_cases hsig : (readHeader data).signature = [0x42,0x4d]
  · have hinfo : (readHeader data).infoHeader.colorPlanes ≠ 1 ∨ (readHeader data).infoHeader.bitsPerPixel ≠ 24 := by
      by_contra hboth
      rw [not_or,not_not,not_not] at hboth
      exact h ⟨hsig,hboth⟩
    rw [if_neg (not_not.mpr hsig),if_pos hinfo]
  · rw [if_pos hsig]

/-- What the loader does with an accepted header: a width that is not positive overflows the row size or leaves no chunk
size, and rows that are cut short end its slices. -/
theorem fromBytes_of_accepted (hlen : headerSize ≤ data.length) (h : Accepted data) :
    fromBytes data = if 0 < (readHeader data).infoHeader.width ∧ WholeRows data then
      some (some ⟨readHeader data,storedPixels data⟩) else none := by
  obtain ⟨hsig,hplanes,hbits⟩ := h
  have hbounds := signedAt_bounds data 18
  have hwidth : (readHeader data).infoHeader.width = signedAt data 18 := rfl
  rw [← hwidth] at hbounds
  rw [fromBytes,if_neg (by omega),if_neg (not_not.mpr hsig),if_neg (by simp [hplanes, hbits])]
  by_cases hpos : 0 < (readHeader data).infoHeader.width
  · have hrow : checkedUsize (((readHeader data).infoHeader.width % 2^64).toNat * 3) =
        some (rowSize (readHeader data)) := by
      have husize : ((readHeader data).infoHeader.width % 2^64).toNat * 3 = rowSize (readHeader data) := by
        rw [rowSize]
        omega
      rw [husize,checkedUsize,if_pos (by rw [rowSize]; omega)]
    have hpad : checkedUsize (rowSize (readHeader data) + 3) = some (rowSize (readHeader data) + 3) :=
      if_pos (by rw [rowSize]; omega)
    have hrows := readRows_eq hpos
    rw [paddedRowSize] at hrows
    simp only [hrow, hpad, Option.bind_eq_bind, Option.bind_some, hrows, hpos, true_and]
    split <;> rfl
  · rw [if_neg fun h => hpos h.1]
    by_cases hzero : (readHeader data).infoHeader.width = 0
    · simp [hzero, checkedUsize, readRows]
    · have hover : checkedUsize (((readHeader data).infoHeader.width % 2^64).toNat * 3) = none := if_neg (by omega)
      simp only [hover, Option.bind_eq_bind, Option.bind_none]

/-- The loader panics on the slices that are shorter than its header, and on those with an accepted header whose width
is not positive, whose data offset is behind the end or whose last row is cut short. -/
theorem isSome_fromBytes (data : List UInt8) : (fromBytes data).isSome ↔ Parses data := by
  by_cases hlen : headerSize ≤ data.length
  · by_cases haccepted : Accepted data
    · rw [fromBytes_of_accepted hlen haccepted,Parses]
      split
      · rename_i h
        exact iff_of_true rfl ⟨hlen,fun _ => h⟩
      · rename_i h
        exact iff_of_false (by simp) fun hparses => h (hparses.2 haccepted)
    · rw [fromBytes_of_not_accepted hlen haccepted]
      exact iff_of_true rfl ⟨hlen,fun h => absurd h haccepted⟩
  · rw [fromBytes,if_pos (by omega)]
    exact iff_of_false (by simp) fun h => hlen h.1

/-- What is known of a slice that the loader made an image of. -/
theorem of_fromBytes {b : Bitmap} (h : fromBytes data = some (some b)) :
    0 < (readHeader data).infoHeader.width ∧ WholeRows data ∧ b = ⟨readHeader data,storedPixels data⟩ := by
  have hparses : Parses data := (isSome_fromBytes data).mp (by rw [h]; rfl)
  by_cases haccepted : Accepted data
  · have hpos := hparses.2 haccepted
    rw [fromBytes_of_accepted hparses.1 haccepted,if_pos hpos,Option.some.injEq,Option.some.injEq] at h
    exact ⟨hpos.1,hpos.2,h.symm⟩
  · rw [fromBytes_of_not_accepted hparses.1 haccepted] at h
    simp at h

/-- The rows in the file, the last one perhaps without its padding. -/
def storedRows (data : List UInt8) : Nat :=
  let header := readHeader data
  (data.length - header.dataOffset + paddedRowSize header - 1) / paddedRowSize header

theorem width_toNat {b : Bitmap} (h : fromBytes data = some (some b)) :
    b.width = (readHeader data).infoHeader.width.toNat := by
  have hbounds := signedAt_bounds data 18
  have hwidth : (readHeader data).infoHeader.width = signedAt data 18 := rfl
  obtain ⟨hpos,_,hb⟩ := of_fromBytes h
  rw [hb]
  change ((readHeader data).infoHeader.width % 2^32).toNat = _
  omega

/-- Each stored row gives the pixels of a whole row, whatever the height in the header says. -/
theorem length_pixelData {b : Bitmap} (h : fromBytes data = some (some b)) :
    b.pixelData.length = storedRows data * b.width := by
  rw [width_toNat h]
  obtain ⟨hpos,hwhole,hb⟩ := of_fromBytes h
  have hrows := (forall_chunks_le_length (paddedRowSize_pos hpos) (rowSize_le (readHeader data))
    (data.drop (readHeader data).dataOffset)).mpr
  rw [List.length_drop] at hrows
  have hlong := hrows hwhole.2
  rw [hb]
  change (storedPixels data).length = _
  rw [storedPixels,length_flatten (n := (readHeader data).infoHeader.width.toNat),List.length_map,length_chunks,
    List.length_drop,storedRows]
  intro row hrow
  obtain ⟨chunk,hchunk,hrow⟩ := List.mem_map.mp hrow
  rw [← hrow,List.length_map]
  apply length_triples
  rw [List.length_take,Nat.min_eq_left (hlong chunk hchunk),rowSize,Nat.mul_comm]

/-- The bytes from the first row to the last pixel: rows with their padding, which the last one need not have. -/
def pixelBytes (header : BitmapFileHeader) : Nat :=
  match header.infoHeader.height.toNat with
  | 0 => 0
  | n + 1 => n * paddedRowSize header + rowSize header

/-- A valid and supported image: the values that the fields of the header may have, pixel data behind the header, and in
it all pixels that the header announces. -/
structure Valid (data : List UInt8) : Prop where
  header : headerSize ≤ data.length
  accepted : Accepted data
  infoHeaderSize : (readHeader data).infoHeader.headerSize = 40
  compression : (readHeader data).infoHeader.compression ∈ [0,3]
  width : 0 < (readHeader data).infoHeader.width
  height : 0 ≤ (readHeader data).infoHeader.height
  dataOffset : headerSize ≤ (readHeader data).dataOffset
  pixels : (readHeader data).dataOffset + pixelBytes (readHeader data) ≤ data.length

/-- The loader answers as documented: with an image for valid data, and with none for any other. -/
def AnswersAsDocumented (data : List UInt8) : Prop :=
  ∃ answer, fromBytes data = some answer ∧ (answer.isSome ↔ Valid data)

/-- The loader does not panic exactly on the slices that parse, and answers as documented exactly on those of them where
a header that it accepts is that of a valid image. -/
theorem from_bytes_rejects_iff (data : List UInt8) :
    ((fromBytes data).isSome ↔ Parses data) ∧
    (AnswersAsDocumented data ↔ Parses data ∧ (Accepted data → Valid data)) := by
  refine ⟨isSome_fromBytes data,?_⟩
  constructor
  · intro h
    obtain ⟨answer,hanswer,hvalid⟩ := h
    have hparses : Parses data := (isSome_fromBytes data).mp (by rw [hanswer]; rfl)
    refine ⟨hparses,fun haccepted => hvalid.mp ?_⟩
    rw [fromBytes_of_accepted hparses.1 haccepted,if_pos (hparses.2 haccepted),Option.some.injEq] at hanswer
    rw [← hanswer]
    rfl
  · intro h
    obtain ⟨hparses,hvalid⟩ := h
    by_cases haccepted : Accepted data
    · have hanswer := fromBytes_of_accepted hparses.1 haccepted
      rw [if_pos (hparses.2 haccepted)] at hanswer
      exact ⟨_,hanswer,iff_of_true rfl (hvalid haccepted)⟩
    · exact ⟨_,fromBytes_of_not_accepted hparses.1 haccepted,iff_of_false (by simp) fun h => haccepted h.accepted⟩

theorem empty_slice_panics : fromBytes [] = none := rfl

end HeineOS.Bitmap
