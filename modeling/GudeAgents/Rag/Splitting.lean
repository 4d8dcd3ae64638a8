import Mathlib.Algebra.Ring.Int.Defs
import Mathlib.Algebra.Ring.Nat
import Mathlib.Data.Int.Basic
import GudeAgents.Framework.MachineInt
import GudeAgents.Rag.Ingest
/-!
# Splitting with machine integers

`SplitText` on 64-bit integers. The capacity of the result and the end of a window wrap around.
-/
namespace GudeAgents.Rag
open Framework List String
inductive Stop where
  | makeslice
  | sliceBounds
  | unfinished

def windowEnd (chunkSize : Int) (length i : Int) : Int :=
  if length<wrap64 (i+chunkSize) then length else wrap64 (i+chunkSize)

/-- The loop of `SplitText` at index `i`, for at most `fuel` tests of its condition. -/
def splitLoop (chunkSize step : Int) (runes : List Char) : Nat → Int → Except Stop (List String)
  | 0, _ => .error .unfinished
  | fuel+1, i =>
    if i<runes.length then
      if i<0 ∨ windowEnd chunkSize runes.length i < i then .error .sliceBounds
      else
        (splitLoop chunkSize step runes fuel (wrap64 (i+step))).map
          (ofList ((runes.drop i.toNat).take (windowEnd chunkSize runes.length i-i).toNat) :: ·)
    else .ok []

def splitText (text : String) (chunkSize overlap : Int) :
    Except Stop (Except String (List String)) :=
  if chunkSize<1 then
    .ok (.error s!"splittext: chunkSize must be >= 1, got {chunkSize}")
  else if overlap<0 then
    .ok (.error s!"splittext: overlap must be >= 0, got {overlap}")
  else if chunkSize≤overlap then
    .ok (.error s!"splittext: overlap ({overlap}) must be < chunkSize ({chunkSize})")
  else
    let runes := text.toList
    if runes.length=0 then .ok (.ok [])
    else if (wrap64 (wrap64 (runes.length+chunkSize)-1)).tdiv chunkSize<0 then
      .error .makeslice
    else
      (splitLoop chunkSize (wrap64 (chunkSize-overlap)) runes (runes.length+1) 0).map .ok

/-- The first chunk, followed by the later ones without what they share with the one before. -/
def rebuilt (overlap : Nat) : List String → List Char
  | [] => []
  | first::later => first.toList ++
      later.flatMap fun chunk => chunk.toList.drop (min overlap chunk.length)

/-- Chunks of at most `chunkSize` runes, `chunkSize - overlap` apart, that give the text back. -/
structure Lossless (text : String) (chunkSize overlap : Nat) (chunks : List String) : Prop where
  size : ∀ chunk∈chunks, chunk≠"" ∧ chunk.length≤chunkSize
  start : ∀ (k : Nat) (chunk : String), chunks[k]?=some chunk →
    chunk.toList <+: text.toList.drop (k*(chunkSize-overlap))
  rebuilt : rebuilt overlap chunks=text.toList

variable {size step : Nat} {runes : List Char}
variable {fuel i k : Nat}
theorem getElem?_windows {chunk : String} (h : (windows size step runes fuel i)[k]?=some chunk) :
    i+k*step<runes.length ∧ chunk=ofList ((runes.drop (i+k*step)).take size) := by
  induction fuel generalizing i k with
  | zero => simp [windows] at h
  | succ fuel ih =>
    rw [windows] at h
    split_ifs at h with hi
    · cases k with
      | zero => simpa [hi] using h.symm
      | succ k =>
        have hnext := ih (i := i+step) (k := k) (by simpa using h)
        rwa [show i + step + k * step=i + (k + 1) * step by ring] at hnext
    · simp at h

variable {overlap : Nat}
theorem flatMap_windows (hstep : 0<step) (hsize : size=step+overlap) (hfuel : runes.length≤fuel+i) :
    ((windows size step runes fuel i).flatMap fun chunk =>
      chunk.toList.drop (min overlap chunk.length))=runes.drop (i+overlap) := by
  induction fuel generalizing i with
  | zero => simp [windows,drop_of_length_le (show runes.length ≤ i + overlap by omega)]
  | succ fuel ih =>
    rw [windows]
    split_ifs with hi
    · have hdrop : ∀ l : List Char, l.drop (min overlap l.length)=l.drop overlap := by
        intro l
        rcases Nat.le_total overlap l.length with h | h
        · rw [Nat.min_eq_left h]
        · rw [Nat.min_eq_right h,drop_length,drop_of_length_le h]
      have hjoin := take_append_drop step (runes.drop (i+overlap))
      rw [drop_drop,show i + overlap + step=i + step + overlap by omega] at hjoin
      rw [flatMap_cons,ih (by omega),← length_toList,toList_ofList,hdrop,drop_take,
        drop_drop,hsize,Nat.add_sub_cancel]
      exact hjoin
    · simp [drop_of_length_le (show runes.length ≤ i + overlap by omega)]

variable {chunkSize : Nat}
private theorem idealSplitText_eq_windows (text : String) (hlt : overlap<chunkSize) :
    idealSplitText text chunkSize overlap =
      .ok (windows chunkSize (chunkSize-overlap) text.toList text.toList.length 0) := by
  rw [idealSplitText,if_neg (by omega),if_neg (by omega),if_neg (by omega),Int.toNat_natCast,
    Int.toNat_sub]

theorem lossless_windows (text : String) (hlt : overlap<chunkSize) : Lossless text chunkSize overlap
      (windows chunkSize (chunkSize-overlap) text.toList text.toList.length 0) where
  size := by
    intro chunk hchunk
    obtain ⟨k,hk⟩ := List.getElem?_of_mem hchunk
    obtain ⟨hlength,rfl⟩ := getElem?_windows hk
    constructor
    · simp only [ne_eq,ofList_eq_empty_iff,take_eq_nil_iff,drop_eq_nil_iff]
      omega
    · simp
  start := by
    intro k chunk hk
    obtain ⟨-,rfl⟩ := getElem?_windows hk
    rw [toList_ofList,Nat.zero_add]
    exact take_prefix _ _
  rebuilt := by
    cases hrunes : text.toList with
    | nil => rfl
    | cons c rest =>
      rw [length_cons,windows,if_pos (by simp),Rag.rebuilt,
        flatMap_windows (by omega) (by omega) (by simp; omega),toList_ofList]
      rw [show 0+(chunkSize-overlap)+overlap=chunkSize by omega,drop_zero]
      exact take_append_drop _ _

private theorem splitLoop_window (hi : i<runes.length) (hle : step ≤ size) (hfits : i+size<2^63) :
    splitLoop size step runes (fuel+1) i =
      (splitLoop size step runes fuel ((i+step : Nat) : Int)).map
        (ofList ((runes.drop i).take size) :: ·) := by
  have hend : windowEnd size runes.length i=(min runes.length (i+size) : Nat) := by
    rw [windowEnd,Fits64.wrap64_eq ⟨by omega,by omega⟩]
    omega
  have hnext : wrap64 ((i : Int)+step)=(i+step : Nat) := by
    rw [Fits64.wrap64_eq ⟨by omega,by omega⟩,Nat.cast_add]
  have htake : (runes.drop i).take (min runes.length (i+size)-i) = (runes.drop i).take size := by
    rw [take_eq_take_iff,length_drop]
    omega
  rw [splitLoop,if_pos (by omega),hend,hnext,if_neg (by omega),Int.toNat_natCast,← htake,
    show (((min runes.length (i+size) : Nat) : Int)-i).toNat = min runes.length (i+size)-i by omega]

private theorem splitLoop_panics (hi : i<runes.length) (hlength : runes.length<2^63)
    (hsize : size<2^63) (hwraps : 2^63 ≤ i+size) :
    splitLoop size step runes (fuel+1) i=.error .sliceBounds := by
  have hend : windowEnd size runes.length i<0 := by
    rw [windowEnd,wrap64_of_ge (by omega) (by omega)]
    omega
  rw [splitLoop,if_pos (by omega),if_pos (by omega)]

private theorem splitLoop_eq_windows (hpos : 0<step) (hle : step ≤ size)
    (hfits : ∀ k, k*step<runes.length → k*step+size<2^63)
    (hfuel : runes.length≤fuel+k*step) :
    splitLoop size step runes (fuel+1) (k*step : Nat) =
      .ok (windows size step runes fuel (k*step)) := by
  induction fuel generalizing k with
  | zero =>
    rw [splitLoop,if_neg (by omega)]
    rfl
  | succ fuel ih =>
    rw [windows]
    split_ifs with hi
    · rw [splitLoop_window hi hle (hfits k hi),show k*step+step=(k+1)*step by ring,
        ih (by rw [show (k+1)*step=k*step+step by ring]; omega)]
      rfl
    · rw [splitLoop,if_neg (by omega)]

private theorem splitLoop_not_ok {last : Nat} (hle : step ≤ size) (hlength : runes.length<2^63)
    (hsize : size<2^63) (hlast : last*step<runes.length)
    (hwraps : 2^63≤last*step+size) (hk : k≤last) (fuel : Nat) (chunks : List String) :
    splitLoop size step runes fuel (k*step : Nat)≠.ok chunks := by
  induction fuel generalizing k chunks with
  | zero => simp [splitLoop]
  | succ fuel ih =>
    have hi : k*step<runes.length := (Nat.mul_le_mul_right step hk).trans_lt hlast
    by_cases hfits : k*step+size<2^63
    · have hne : k≠last := by
        rintro rfl
        omega
      have hrest := ih (k := k+1) (by omega)
      rw [show (k + 1) * step=k * step + step by ring] at hrest
      rw [splitLoop_window hi hle hfits]
      cases hloop : splitLoop size step runes fuel ((k * step + step : Nat) : Int) with
      | error stop => simp [Except.map]
      | ok others => exact absurd hloop (hrest others)
    · rw [splitLoop_panics hi hlength hsize (by omega)]
      simp

/-- The capacity is not negative and the last window ends within the integers. A chunk size that
exceeds them by so much that the capacity becomes zero again is left with the second condition. -/
def InRange (length chunkSize overlap : Nat) : Prop :=
  length+chunkSize≤2^63 ∨ 2^64+1<length+2*chunkSize ∧
    (length-1) / (chunkSize-overlap)*(chunkSize-overlap)+chunkSize<2^63

instance (length chunkSize overlap : Nat) : Decidable (InRange length chunkSize overlap) :=
  inferInstanceAs (Decidable (_ ∨ _))

private theorem capacity_neg_iff {length : Nat} (hlength : length<2^63) (hsize : chunkSize<2^63)
    (hpos : 0<chunkSize) :
    (wrap64 (wrap64 ((length : Int)+chunkSize)-1)).tdiv chunkSize<0 ↔
      2^63<length+chunkSize ∧ length+2*chunkSize≤2^64+1 := by
  rw [sub_eq_add_neg,wrap64_add_wrap64_left]
  rcases Nat.lt_or_ge (2^63) (length + chunkSize) with hover | hfits
  · rw [wrap64_of_ge (by omega) (by omega),
      show (length : Int)+chunkSize + -1-2^64 = -(2^64+1-length-chunkSize) by ring,
      Int.neg_tdiv,Int.tdiv_eq_ediv_of_nonneg (by omega),neg_lt_zero,Int.lt_iff_add_one_le,
      Int.le_ediv_iff_mul_le (by omega)]
    omega
  · rw [Fits64.wrap64_eq ⟨by omega,by omega⟩]
    have hnonneg := Int.tdiv_nonneg (show 0≤(length : Int)+chunkSize + -1 by omega)
      (Int.natCast_nonneg chunkSize)
    omega

theorem InRange.window_fits {length : Nat} (h : InRange length chunkSize overlap)
    (hlt : overlap<chunkSize) (hk : k*(chunkSize-overlap)<length) :
    k*(chunkSize-overlap)+chunkSize<2^63 := by
  rcases h with h | ⟨-,h⟩
  · omega
  · have hlast : k≤(length-1) / (chunkSize-overlap) :=
      (Nat.le_div_iff_mul_le (by omega)).mpr (by omega)
    exact (Nat.add_le_add_right (Nat.mul_le_mul_right _ hlast) _).trans_lt h

variable {text : String}
private theorem splitText_eq (hlength : text.length<2^63) (hsize : chunkSize<2^63)
    (hlt : overlap<chunkSize) :
    splitText text chunkSize overlap =
      if text.length=0 then .ok (.ok [])
      else if 2^63<text.length+chunkSize ∧ text.length+2*chunkSize≤2^64+1 then
        .error .makeslice
      else (splitLoop chunkSize (chunkSize-overlap : Nat) text.toList (text.length+1) 0).map
        .ok := by
  have hstep : wrap64 ((chunkSize : Int)-overlap)=(chunkSize-overlap : Nat) := by
    rw [Fits64.wrap64_eq ⟨by omega,by omega⟩]
    omega
  rw [splitText,if_neg (by omega),if_neg (by omega),if_neg (by omega),hstep]
  simp only [length_toList,capacity_neg_iff hlength hsize (Nat.zero_lt_of_lt hlt)]

theorem InRange.splitText_eq (h : InRange text.length chunkSize overlap)
    (hlength : text.length<2^63) (hsize : chunkSize<2^63) (hlt : overlap<chunkSize) :
    splitText text chunkSize overlap=.ok (idealSplitText text chunkSize overlap) := by
  rw [Rag.splitText_eq hlength hsize hlt,idealSplitText_eq_windows text hlt]
  split_ifs with hempty hcapacity
  · rw [length_toList,hempty]
    rfl
  · rcases h with h | h
    · omega
    · omega
  · have hloop : splitLoop chunkSize (chunkSize-overlap : Nat) text.toList (text.length+1)
        (0*(chunkSize-overlap) : Nat) =
          .ok (windows chunkSize (chunkSize-overlap) text.toList text.length
            (0*(chunkSize-overlap))) := by
      apply splitLoop_eq_windows (Nat.sub_pos_of_lt hlt) (Nat.sub_le _ _)
      · intro k hk
        exact h.window_fits hlt (by rwa [length_toList] at hk)
      · rw [length_toList,Nat.zero_mul,Nat.add_zero]
    rw [Nat.zero_mul] at hloop
    exact congrArg (Except.map Except.ok) hloop

private theorem splitText_not_ok (h : ¬ InRange text.length chunkSize overlap)
    (hlength : text.length<2^63) (hsize : chunkSize<2^63) (hlt : overlap<chunkSize)
    (chunks : List String) : splitText text chunkSize overlap≠.ok (.ok chunks) := by
  simp only [InRange,not_or,not_and,not_lt] at h
  rw [splitText_eq hlength hsize hlt,if_neg (by omega)]
  split_ifs with hcapacity
  · simp
  have hlast : (text.length-1) / (chunkSize-overlap)*(chunkSize-overlap) <
      text.toList.length := by
    have hle := Nat.div_mul_le_self (text.length-1) (chunkSize-overlap)
    rw [length_toList]
    omega
  have hloop := splitLoop_not_ok (Nat.sub_le chunkSize overlap) (by rwa [length_toList])
    hsize hlast (h.2 (by omega)) (Nat.zero_le _)
  rw [Nat.zero_mul] at hloop
  intro hok
  cases hresult : splitLoop chunkSize (chunkSize-overlap : Nat) text.toList (text.length + 1) 0 with
  | error stop => simp [hresult,Except.map] at hok
  | ok others => exact hloop _ others hresult

/-- The chunks cover the text exactly when the arithmetic in 64 bits is in range. -/
theorem splitText_lossless_iff (text : String) (chunkSize overlap : Nat)
    (hlength : text.length<2^63) (hsize : chunkSize<2^63) (hlt : overlap<chunkSize) :
    (∃ chunks, splitText text chunkSize overlap=.ok (.ok chunks) ∧
      Lossless text chunkSize overlap chunks) ↔ InRange text.length chunkSize overlap := by
  constructor
  · rintro ⟨chunks,hok,-⟩
    by_contra hrange
    exact splitText_not_ok hrange hlength hsize hlt chunks hok
  · intro hrange
    refine ⟨_,?_,lossless_windows text hlt⟩
    rw [hrange.splitText_eq hlength hsize hlt,idealSplitText_eq_windows text hlt]

theorem splitText_lossless_letters : ∃ chunks, splitText "abcde" 3 1=.ok (.ok chunks) ∧
    Lossless "abcde" 3 1 chunks :=
  (splitText_lossless_iff "abcde" 3 1 (by decide) (by decide) (by decide)).mpr (by decide)
theorem splitText_panics : splitText "ab" (2^63-1) 0=.error .makeslice := by
  simp [splitText,wrap64]
end GudeAgents.Rag
