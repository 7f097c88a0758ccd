import HeineOS.Lib.Bytes

/-! The search for a tag in the Multiboot2 information block: what it finds in a block that is well formed, and when it
is safe on any other. -/
namespace HeineOS.Multiboot
open Lib

/-- How a search ends: at the offset of a tag, without one, or in a sum that overflows. -/
inductive Search where
  | found (offset : Nat)
  | notFound
  | overflow
  deriving DecidableEq, Repr

section
variable (m : Bytes)

/-- The memory starts with the block. -/
def totalSize : Nat := m.load 0 4

/-- The fields of the header at an offset. The type is taken as a number. -/
def tagTyp (offset : Nat) : Nat := m.load offset 4

def tagSize (offset : Nat) : Nat := m.load (offset + 4) 4

/-- `(size + 7) & !7` on `u32`. The sum wraps around, unless the build has overflow checks. -/
def advance (checks : Bool) (size : Nat) : Option Nat :=
  if checks = true ∧ 2^32 ≤ size + 7 then none else some ((size + 7) % 2^32 / 8 * 8)

/-- The loop of `find_tag`; `none` when the fuel does not last. -/
def findTagLoop (checks : Bool) (tagType : Nat) : Nat → Nat → Option Search
  | 0,_ => none
  | fuel + 1,offset =>
    if offset < totalSize m then
      if tagTyp m offset = tagType then some (.found offset)
      else if tagSize m offset = 0 then some .notFound
      else
        match advance checks (tagSize m offset) with
        | none => some .overflow
        | some n => findTagLoop checks tagType fuel (offset + n)
    else some .notFound

/-- The tags start behind the fixed part. -/
def findTag (checks : Bool) (tagType fuel : Nat) : Option Search := findTagLoop m checks tagType fuel 8

end

section
variable {m : Bytes} {checks : Bool} {tagType fuel offset : Nat}

theorem advance_eq {size : Nat} (h : size + 7 < 2^32) : advance checks size = some ((size + 7) / 8 * 8) := by
  rw [advance,if_neg (by omega),Nat.mod_eq_of_lt h]

theorem findTagLoop_end (h : totalSize m ≤ offset) :
    findTagLoop m checks tagType (fuel + 1) offset = some .notFound := by
  rw [findTagLoop,if_neg (Nat.not_lt.mpr h)]

theorem findTagLoop_found (h : offset < totalSize m) (htyp : tagTyp m offset = tagType) :
    findTagLoop m checks tagType (fuel + 1) offset = some (.found offset) := by
  rw [findTagLoop,if_pos h,if_pos htyp]

theorem findTagLoop_stop (h : offset < totalSize m) (htyp : tagTyp m offset ≠ tagType) (hzero : tagSize m offset = 0) :
    findTagLoop m checks tagType (fuel + 1) offset = some .notFound := by
  rw [findTagLoop,if_pos h,if_neg htyp,if_pos hzero]

theorem findTagLoop_next (h : offset < totalSize m) (htyp : tagTyp m offset ≠ tagType) (hzero : tagSize m offset ≠ 0)
    {n : Nat} (hadvance : advance checks (tagSize m offset) = some n) :
    findTagLoop m checks tagType (fuel + 1) offset = findTagLoop m checks tagType fuel (offset + n) := by
  rw [findTagLoop,if_pos h,if_neg htyp,if_neg hzero,hadvance]

end

/-! ### Blocks that are well formed -/

structure Tag where
  typ : Nat
  payload : List UInt8
  typ_lt : typ < 2^32
  payload_le : 8 + payload.length ≤ 2^32 - 8

namespace Tag
variable (tag : Tag)

def size : Nat := 8 + tag.payload.length

/-- With the bytes up to the next tag. -/
def paddedSize : Nat := (tag.size + 7) / 8 * 8

/-- The header and the payload stand at an offset. -/
structure At (m : Bytes) (offset : Nat) : Prop where
  typ : tagTyp m offset = tag.typ
  size : tagSize m offset = tag.size
  payload : ∀ i, i < tag.payload.length → tag.payload[i]? = some (m (offset + 8 + i))

theorem size_le_padded : tag.size ≤ tag.paddedSize := by
  rw [paddedSize]
  omega

theorem size_pos : 0 < tag.size := by
  rw [size]
  omega

theorem advance_size (checks : Bool) : advance checks tag.size = some tag.paddedSize := by
  have hle := tag.payload_le
  apply advance_eq
  rw [size]
  omega

end Tag

/-- The tags from an offset to the end of the block, each at a multiple of eight bytes behind the one before. The
padding of the last one may be cut off. -/
inductive Tags (m : Bytes) : Nat → List Tag → Prop where
  | nil : Tags m (totalSize m) []
  | last {offset : Nat} {tag : Tag} : tag.At m offset → offset + tag.size ≤ totalSize m →
      totalSize m ≤ offset + tag.paddedSize → Tags m offset [tag]
  | cons {offset : Nat} {tag : Tag} {tags : List Tag} : tag.At m offset → Tags m (offset + tag.paddedSize) tags →
      Tags m offset (tag :: tags)

/-- A block is the fixed part and its tags. -/
def WellFormed (m : Bytes) (tags : List Tag) : Prop := Tags m 8 tags

/-- The first tag of a type, the tags starting at an offset. -/
def firstTag (tagType : Nat) : Nat → List Tag → Search
  | _,[] => .notFound
  | offset,tag :: tags => if tag.typ = tagType then .found offset else firstTag tagType (offset + tag.paddedSize) tags

section
variable {m : Bytes} {offset : Nat} {tags : List Tag}

theorem Tags.offset_le (h : Tags m offset tags) : offset ≤ totalSize m := by
  induction h with
  | nil => exact le_rfl
  | last _ hend _ => omega
  | cons _ _ ih => omega

/-- The search goes from a tag to the offset behind its padding. -/
private theorem findTagLoop_at {tag : Tag} (hat : tag.At m offset) (hin : offset < totalSize m) (checks : Bool)
    (tagType fuel : Nat) : findTagLoop m checks tagType (fuel + 1) offset =
      if tag.typ = tagType then some (.found offset)
      else findTagLoop m checks tagType fuel (offset + tag.paddedSize) := by
  split_ifs with htyp
  · exact findTagLoop_found hin (hat.typ.trans htyp)
  · have hpos := tag.size_pos
    have hadvance : advance checks (tagSize m offset) = some tag.paddedSize := by rw [hat.size,tag.advance_size]
    apply findTagLoop_next hin _ _ hadvance
    · rw [hat.typ]
      exact htyp
    · rw [hat.size]
      omega

/-- The search meets the tags one after the other. -/
theorem findTagLoop_tags (h : Tags m offset tags) (checks : Bool) (tagType : Nat) {fuel : Nat}
    (hfuel : tags.length < fuel) :
    findTagLoop m checks tagType fuel offset = some (firstTag tagType offset tags) := by
  induction h generalizing fuel with
  | nil =>
    obtain ⟨fuel,rfl⟩ := Nat.exists_eq_add_one_of_ne_zero (Nat.ne_of_gt hfuel)
    exact findTagLoop_end le_rfl
  | @last offset tag hat hend hpadded =>
    rw [List.length_singleton] at hfuel
    obtain ⟨fuel,rfl⟩ : ∃ n, fuel = n + 1 + 1 := ⟨fuel - 2,by omega⟩
    have hpos := tag.size_pos
    rw [findTagLoop_at hat (by omega),findTagLoop_end hpadded,firstTag,firstTag]
    split_ifs <;> rfl
  | @cons offset tag tags hat hrest ih =>
    obtain ⟨fuel,rfl⟩ := Nat.exists_eq_add_one_of_ne_zero (Nat.ne_of_gt (Nat.zero_lt_of_lt hfuel))
    have hpos := tag.size_pos
    have hpadded := tag.size_le_padded
    have hend := hrest.offset_le
    rw [findTagLoop_at hat (by omega),ih (Nat.lt_of_succ_lt_succ hfuel),firstTag]
    split_ifs <;> rfl

/-- The first tag of a type, if there is one, stands where the list has it. -/
private theorem firstTag_cases (h : Tags m offset tags) (tagType : Nat) :
    (firstTag tagType offset tags = .notFound ∧ ∀ tag ∈ tags, tag.typ ≠ tagType) ∨
    ∃ before tag after, tags = before ++ tag :: after ∧ (∀ earlier ∈ before, earlier.typ ≠ tagType) ∧
      tag.typ = tagType ∧ firstTag tagType offset tags = .found (offset + (before.map Tag.paddedSize).sum) ∧
      tag.At m (offset + (before.map Tag.paddedSize).sum) := by
  induction h with
  | nil => exact .inl ⟨rfl,by simp⟩
  | @last offset tag hat _ _ =>
    by_cases htyp : tag.typ = tagType
    · exact .inr ⟨[],tag,[],rfl,by simp,htyp,if_pos htyp,hat⟩
    · exact .inl ⟨if_neg htyp,by simpa using htyp⟩
  | @cons offset tag tags hat _ ih =>
    by_cases htyp : tag.typ = tagType
    · exact .inr ⟨[],tag,tags,rfl,by simp,htyp,if_pos htyp,hat⟩
    · have hfirst : firstTag tagType offset (tag :: tags) = firstTag tagType (offset + tag.paddedSize) tags :=
        if_neg htyp
      rw [hfirst]
      rcases ih with ⟨hnone,hall⟩ | ⟨before,found,after,hsplit,hbefore,hfound,hoffset,hat'⟩
      · exact .inl ⟨hnone,List.forall_mem_cons.mpr ⟨htyp,hall⟩⟩
      · right
        have hsum : offset + ((tag :: before).map Tag.paddedSize).sum =
            offset + tag.paddedSize + (before.map Tag.paddedSize).sum := by
          rw [List.map_cons,List.sum_cons,Nat.add_assoc]
        refine ⟨tag :: before,found,after,?_,List.forall_mem_cons.mpr ⟨htyp,hbefore⟩,hfound,?_,?_⟩
        · rw [hsplit]
          rfl
        · rw [hsum,hoffset]
        · rw [hsum]
          exact hat'

/-- In a block that is well formed the search returns the first tag of a type in the order of the block, and nothing
exactly when no tag has it. -/
theorem find_tag_first (h : WellFormed m tags) (checks : Bool) (tagType : Nat) :
    ∃ result, (∀ fuel > tags.length, findTag m checks tagType fuel = some result) ∧
      ((result = .notFound ∧ ∀ tag ∈ tags, tag.typ ≠ tagType) ∨
      ∃ before tag after, tags = before ++ tag :: after ∧ (∀ earlier ∈ before, earlier.typ ≠ tagType) ∧
        tag.typ = tagType ∧ result = .found (8 + (before.map Tag.paddedSize).sum) ∧
        tag.At m (8 + (before.map Tag.paddedSize).sum)) :=
  ⟨firstTag tagType 8 tags,fun _ hfuel => findTagLoop_tags h checks tagType hfuel,firstTag_cases h tagType⟩

end

/-- A block with two tags, without the padding behind the second one. -/
def sampleBlock : Bytes := fun i =>
  [26,0,0,0,0,0,0,0, 3,0,0,0,8,0,0,0, 1,0,0,0,10,0,0,0,65,0].getD i 0

def emptyTag : Tag := ⟨3,[],by decide,by decide⟩

def nameTag : Tag := ⟨1,[65,0],by decide,by decide⟩

theorem find_tag_first_sample : ∃ result, (∀ fuel > 2, findTag sampleBlock true 1 fuel = some result) ∧
    result = .found 16 := by
  have hname : nameTag.At sampleBlock 16 := ⟨rfl,rfl,by decide⟩
  have hempty : emptyTag.At sampleBlock 8 := ⟨rfl,rfl,by decide⟩
  have hwf : WellFormed sampleBlock [emptyTag,nameTag] := .cons hempty (.last hname (by decide) (by decide))
  obtain ⟨result,hsearch,-⟩ := find_tag_first hwf true 1
  have hfound := hsearch 3 (by decide)
  have hfour : findTag sampleBlock true 1 3 = some (.found 16) := rfl
  rw [hfour] at hfound
  exact ⟨result,hsearch,(Option.some.inj hfound).symm⟩

/-! ### Blocks of any content -/

section
variable (m : Bytes) (tagType : Nat)

/-- The offsets at which the search reads a header, in wrapping arithmetic. -/
inductive Reads : Nat → Prop where
  | first : 8 < totalSize m → Reads 8
  | next {offset n : Nat} : Reads offset → tagTyp m offset ≠ tagType → tagSize m offset ≠ 0 →
      advance false (tagSize m offset) = some n → offset + n < totalSize m → Reads (offset + n)

/-- The search ends with and without overflow checks, no sum overflows, and each header lies within the block. -/
structure SafeSearch : Prop where
  ends : ∀ checks, ∃ enough result, ∀ fuel ≥ enough, findTag m checks tagType fuel = some result
  noOverflow : ∀ offset, Reads m tagType offset → tagTyp m offset ≠ tagType → tagSize m offset ≠ 0 →
    tagSize m offset + 7 < 2^32
  within : ∀ offset, Reads m tagType offset → offset + 8 ≤ totalSize m

/-- Where the tags of the block are by the format: each behind the one before, rounded up to eight bytes. -/
def tagOffset : Nat → Nat
  | 0 => 8
  | i + 1 => tagOffset i + (tagSize m (tagOffset i) + 7) / 8 * 8

/-- The first `i` tags lie before the end of the block, and are neither of the type nor of size 0. -/
def PassedOver (i : Nat) : Prop :=
  ∀ j < i, tagOffset m j < totalSize m ∧ tagTyp m (tagOffset m j) ≠ tagType ∧ tagSize m (tagOffset m j) ≠ 0

end

section
variable {m : Bytes} {tagType i : Nat}

private theorem tagOffset_mod (m : Bytes) (i : Nat) : tagOffset m i % 8 = 0 := by
  induction i with
  | zero => exact Nat.mod_self 8
  | succ i ih =>
    rw [tagOffset]
    omega

private theorem PassedOver.of_succ (h : PassedOver m tagType (i + 1)) : PassedOver m tagType i :=
  fun j hj => h j (Nat.lt_succ_of_lt hj)

private theorem PassedOver.succ (h : PassedOver m tagType i) (hin : tagOffset m i < totalSize m)
    (htyp : tagTyp m (tagOffset m i) ≠ tagType) (hzero : tagSize m (tagOffset m i) ≠ 0) :
    PassedOver m tagType (i + 1) := by
  intro j hj
  rcases Nat.lt_succ_iff_lt_or_eq.mp hj with hj | rfl
  · exact h j hj
  · exact ⟨hin,htyp,hzero⟩

/-- While the sums fit, the search reads the headers of the tags. -/
private theorem reads_tagOffset (h : PassedOver m tagType i) (hin : tagOffset m i < totalSize m)
    (hsizes : ∀ j < i, tagSize m (tagOffset m j) + 7 < 2^32) : Reads m tagType (tagOffset m i) := by
  induction i with
  | zero => exact .first hin
  | succ i ih =>
    obtain ⟨hlast,htyp,hzero⟩ := h i (Nat.lt_succ_self i)
    have hread := ih h.of_succ hlast fun j hj => hsizes j (Nat.lt_succ_of_lt hj)
    exact .next hread htyp hzero (advance_eq (hsizes i (Nat.lt_succ_self i))) hin

/-- While the sums fit, it reads no others. -/
private theorem exists_tagOffset_of_reads
    (hsizes : ∀ i, PassedOver m tagType (i + 1) → tagSize m (tagOffset m i) + 7 < 2^32) {offset : Nat}
    (h : Reads m tagType offset) : offset < totalSize m ∧ ∃ i, offset = tagOffset m i ∧ PassedOver m tagType i := by
  induction h with
  | first hin =>
    refine ⟨hin,0,rfl,?_⟩
    intro j hj
    exact absurd hj (Nat.not_lt_zero j)
  | @next offset n _ htyp hzero hadvance hin ih =>
    obtain ⟨hlast,i,hoffset,hpassed⟩ := ih
    rw [hoffset] at hlast htyp hzero hadvance hin ⊢
    have hnext := hpassed.succ hlast htyp hzero
    rw [advance_eq (hsizes i hnext),Option.some.injEq] at hadvance
    refine ⟨hin,i + 1,?_,hnext⟩
    rw [tagOffset,hadvance]

/-- While the sums fit, each step comes nearer to the end. -/
private theorem findTagLoop_ends
    (hsizes : ∀ i, PassedOver m tagType (i + 1) → tagSize m (tagOffset m i) + 7 < 2^32) (checks : Bool) (k : Nat)
    (h : PassedOver m tagType i) (hk : totalSize m - tagOffset m i ≤ k) :
    ∃ result, ∀ fuel > k, findTagLoop m checks tagType fuel (tagOffset m i) = some result := by
  induction k generalizing i with
  | zero =>
    refine ⟨.notFound,fun fuel hfuel => ?_⟩
    obtain ⟨n,rfl⟩ := Nat.exists_eq_add_one_of_ne_zero (Nat.ne_of_gt hfuel)
    exact findTagLoop_end (by omega)
  | succ k ih =>
    by_cases hin : tagOffset m i < totalSize m
    · by_cases htyp : tagTyp m (tagOffset m i) = tagType
      · refine ⟨.found (tagOffset m i),fun fuel hfuel => ?_⟩
        obtain ⟨n,rfl⟩ : ∃ n, fuel = n + 1 := ⟨fuel - 1,by omega⟩
        exact findTagLoop_found hin htyp
      · by_cases hzero : tagSize m (tagOffset m i) = 0
        · refine ⟨.notFound,fun fuel hfuel => ?_⟩
          obtain ⟨n,rfl⟩ : ∃ n, fuel = n + 1 := ⟨fuel - 1,by omega⟩
          exact findTagLoop_stop hin htyp hzero
        · have hnext := h.succ hin htyp hzero
          have hstep : tagOffset m (i + 1) = tagOffset m i + (tagSize m (tagOffset m i) + 7) / 8 * 8 := rfl
          obtain ⟨result,hresult⟩ := ih hnext (by omega)
          refine ⟨result,fun fuel hfuel => ?_⟩
          obtain ⟨n,rfl⟩ : ∃ n, fuel = n + 1 := ⟨fuel - 1,by omega⟩
          rw [findTagLoop_next hin htyp hzero (advance_eq (hsizes i hnext)),← hstep]
          exact hresult n (by omega)
    · refine ⟨.notFound,fun fuel hfuel => ?_⟩
      obtain ⟨n,rfl⟩ : ∃ n, fuel = n + 1 := ⟨fuel - 1,by omega⟩
      exact findTagLoop_end (Nat.le_of_not_lt hin)

/-- The search is safe exactly when no tag that it passes over has a size above `2^32 - 8`, and none starts in the last
bytes of a block whose size is no multiple of eight. -/
theorem search_safe_iff (m : Bytes) (tagType : Nat) :
    SafeSearch m tagType ↔
      (∀ i, PassedOver m tagType (i + 1) → tagSize m (tagOffset m i) ≤ 2^32 - 8) ∧
      (totalSize m % 8 = 0 ∨ ∀ i, PassedOver m tagType i → tagOffset m i ≠ totalSize m / 8 * 8) := by
  constructor
  · intro hsafe
    have hsizes (i : Nat) : PassedOver m tagType (i + 1) → tagSize m (tagOffset m i) + 7 < 2^32 := by
      induction i using Nat.strong_induction_on with
      | _ i ih =>
        intro hpassed
        obtain ⟨hin,htyp,hzero⟩ := hpassed i (Nat.lt_succ_self i)
        have hread := reads_tagOffset hpassed.of_succ hin fun j hj =>
          ih j hj fun k hk => hpassed k (by omega)
        exact hsafe.noOverflow _ hread htyp hzero
    refine ⟨fun i hpassed => ?_,?_⟩
    · have hsum := hsizes i hpassed
      omega
    · rw [or_iff_not_imp_left]
      intro hmod i hpassed hoffset
      have hin : tagOffset m i < totalSize m := by omega
      have hread := reads_tagOffset hpassed hin fun j hj => hsizes j fun k hk => hpassed k (by omega)
      have hwithin := hsafe.within _ hread
      omega
  · intro hcond
    obtain ⟨hle,htail⟩ := hcond
    have hsizes (i : Nat) (hpassed : PassedOver m tagType (i + 1)) : tagSize m (tagOffset m i) + 7 < 2^32 := by
      have hsize := hle i hpassed
      omega
    constructor
    case ends =>
      intro checks
      have hstart : PassedOver m tagType 0 := fun j hj => absurd hj (Nat.not_lt_zero j)
      obtain ⟨result,hresult⟩ := findTagLoop_ends hsizes checks (totalSize m) hstart (Nat.sub_le _ _)
      exact ⟨totalSize m + 1,result,fun fuel hfuel => hresult fuel (by omega)⟩
    case noOverflow =>
      intro offset hread htyp hzero
      obtain ⟨hin,i,rfl,hpassed⟩ := exists_tagOffset_of_reads hsizes hread
      exact hsizes i (hpassed.succ hin htyp hzero)
    case within =>
      intro offset hread
      obtain ⟨hin,i,rfl,hpassed⟩ := exists_tagOffset_of_reads hsizes hread
      have hmod := tagOffset_mod m i
      rcases htail with htail | htail
      · omega
      · have hne := htail i hpassed
        omega

/-- One tag of type 5, with the largest size. -/
def hugeTag : Bytes := fun i => [16,0,0,0,0,0,0,0, 5,0,0,0,255,255,255,255].getD i 0

/-- The sum wraps around to 6, and the search stays at the tag. -/
theorem search_never_ends : ¬ SafeSearch hugeTag 1 := by
  have hadvance : advance false (tagSize hugeTag 8) = some 0 := rfl
  have hloop (fuel : Nat) : findTagLoop hugeTag false 1 fuel 8 = none := by
    induction fuel with
    | zero => rfl
    | succ fuel ih =>
      rw [findTagLoop_next (by decide) (by decide) (by decide) hadvance]
      exact ih
  intro hsafe
  obtain ⟨enough,result,hends⟩ := hsafe.ends false
  have hresult := hends enough le_rfl
  rw [findTag,hloop] at hresult
  exact nomatch hresult

end

end HeineOS.Multiboot
