import Ket.Proofs.Support.Partition
import Ket.Proofs.Words.Arithmetic

/-! Supports computed on machine words. In registers of up to 63 qubits every operation has an
outcome, and the words that come out are the numbers of the support. -/

namespace Ket

open Word

/-- Positions, the same in ascending order, and the offsets of the members. -/
structure WordSupport where
  positions : List UInt64
  ascending : List UInt64
  offsets : List UInt64

namespace WordSupport

/-- The numbers in the words are those of the support. -/
structure Holds (w : WordSupport) (s : Support) : Prop where
  positions : w.positions.map UInt64.toNat = s.positions
  ascending : w.ascending.map UInt64.toNat = s.ascending
  offsets : w.offsets.map UInt64.toNat = s.offsets

def count (w : WordSupport) : UInt64 := .ofNat w.positions.length

def position? (width q : UInt64) : Option UInt64 := do sub? (← sub? width 1) q

/-- The bit at position `i` of the row `b`, put to its place. -/
def deposit? (positions : List UInt64) (b offset : UInt64) (i : Nat) : Option UInt64 := do
  let amount ← sub? (← sub? (.ofNat positions.length) 1) (.ofNat i)
  if (← shiftRight? b amount) &&& 1 = 1 then
    let p ← positions[i]?
    return offset ||| (← shiftLeft? 1 p)
  else return offset

def offset? (positions : List UInt64) (b : UInt64) : Option UInt64 :=
  (List.range positions.length).foldlM (deposit? positions b) 0

/-- The operands have been checked before. -/
def ofQubits? (width : UInt64) (qubits : List UInt64) : Option WordSupport := do
  let positions ← qubits.mapM (position? width)
  let size ← shiftLeft? 1 (.ofNat positions.length)
  let offsets ← (List.range size.toNat).mapM fun b => offset? positions (.ofNat b)
  return ⟨positions, positions.mergeSort, offsets⟩

def mask? (w : WordSupport) : Option UInt64 :=
  w.positions.foldlM (fun mask p => return mask ||| (← shiftLeft? 1 p)) 0

def localIndex? (w : WordSupport) (i : UInt64) : Option UInt64 :=
  w.positions.foldlM (fun b p => return (← shiftLeft? b 1) ||| ((← shiftRight? i p) &&& 1)) 0

def insertZero? (r p : UInt64) : Option UInt64 := do
  let low := r &&& (← sub? (← shiftLeft? 1 p) 1)
  let high ← shiftLeft? (← shiftRight? r p) (← add? p 1)
  return high ||| low

def representative? (w : WordSupport) (number : UInt64) : Option UInt64 :=
  w.ascending.foldlM insertZero? number

def representatives? (w : WordSupport) (length : UInt64) : Option (List UInt64) := do
  let number ← shiftRight? length w.count
  (List.range number.toNat).mapM fun r => w.representative? (.ofNat r)

end WordSupport

namespace Support

/-- The support with its numbers in words. -/
def onWords (s : Support) : WordSupport :=
  ⟨s.positions.map .ofNat, s.ascending.map .ofNat, s.offsets.map .ofNat⟩

@[simp] theorem count_onWords (s : Support) : s.onWords.count = .ofNat s.count := by
  rw [WordSupport.count, onWords, List.length_map]
  rfl

theorem map_toNat_map_ofNat {l : List Nat} (h : ∀ x ∈ l, x < UInt64.size) :
    (l.map UInt64.ofNat).map UInt64.toNat = l := by
  rw [List.map_map]
  exact (List.map_congr_left fun x hx => toNat_ofNat (h x hx)).trans (List.map_id _)

theorem holds_onWords {s : Support} {m : Nat} (hm : ∀ p ∈ s.positions, p < m) (hm63 : m ≤ 63) :
    s.onWords.Holds s := by
  have hps (p : Nat) (hp : p ∈ s.positions) : p < UInt64.size :=
    (hm p hp).trans_le (hm63.trans (by decide))
  refine ⟨map_toNat_map_ofNat hps, map_toNat_map_ofNat fun p hp => hps p (mem_ascending.1 hp),
    map_toNat_map_ofNat fun offset h => ?_⟩
  obtain ⟨b, -, rfl⟩ := List.mem_map.1 h
  exact (deposit_lt hm b).trans (two_pow_lt_size hm63)

theorem mask_lt {s : Support} {m : Nat} (hm : ∀ p ∈ s.positions, p < m) : s.mask < 2 ^ m := by
  refine Nat.lt_pow_two_of_testBit _ fun j hj => ?_
  rw [testBit_mask, decide_eq_false_iff_not]
  exact fun h => absurd (hm j h) (by omega)

theorem one_shiftLeft_lt {p : Nat} (hp : p < 64) : 1 <<< p < UInt64.size := by
  rw [Nat.one_shiftLeft]
  exact two_pow_lt_size (Nat.le_of_lt_succ hp)

theorem one_shiftLeft?_ofNat {p : Nat} (hp : p < 64) :
    shiftLeft? 1 (.ofNat p) = some (.ofNat (1 <<< p)) :=
  shiftLeft?_ofNat hp (one_shiftLeft_lt hp)

theorem ofNat_and_one_eq_one_iff (b n : Nat) :
    UInt64.ofNat (b >>> n) &&& 1 = 1 ↔ b.testBit n = true := by
  have h : UInt64.ofNat (b >>> n) &&& 1 = .ofNat (b >>> n &&& 1) := (UInt64.ofNat_and _ _).symm
  have hle : b >>> n &&& 1 < UInt64.size := Nat.and_le_right.trans_lt (by decide)
  rw [h, show (1 : UInt64) = .ofNat 1 from rfl, ofNat_inj hle (by decide), Nat.and_one_is_mod,
    Nat.shiftRight_eq_div_pow, ← Nat.toNat_testBit]
  cases b.testBit n <;> decide

section Offsets

variable {ps : List Nat} (hps : ∀ p ∈ ps, p < 64) (hlen : ps.length ≤ 64) {b : Nat}
  (hb : b < UInt64.size)

include hps hlen hb

theorem deposit?_eq (offset : Nat) {i : Nat} (hi : i < ps.length) :
    WordSupport.deposit? (ps.map .ofNat) (.ofNat b) (.ofNat offset) i =
      some (.ofNat (offset ||| if b.testBit (ps.length - 1 - i) then 1 <<< ps[i] else 0)) := by
  have hsize : 64 < UInt64.size := by decide
  have hlast : sub? (.ofNat ps.length) 1 = some (.ofNat (ps.length - 1)) :=
    sub?_ofNat (y := 1) (by omega) (by omega)
  have hamount : sub? (.ofNat (ps.length - 1)) (.ofNat i) = some (.ofNat (ps.length - 1 - i)) :=
    sub?_ofNat (by omega) (by omega)
  have hshift : shiftRight? (.ofNat b) (.ofNat (ps.length - 1 - i)) =
      some (.ofNat (b >>> (ps.length - 1 - i))) := shiftRight?_ofNat (by omega) hb
  have hget : (ps.map UInt64.ofNat)[i]? = some (.ofNat ps[i]) := by simp [hi]
  have hbit := one_shiftLeft?_ofNat (hps _ (List.getElem_mem hi))
  rw [WordSupport.deposit?, List.length_map, bind_of_some hlast, bind_of_some hamount,
    bind_of_some hshift]
  simp only [ofNat_and_one_eq_one_iff]
  split
  · rw [bind_of_some hget, bind_of_some hbit, UInt64.ofNat_or]
    rfl
  · rw [Nat.or_zero]
    rfl

theorem offset?_eq :
    WordSupport.offset? (ps.map .ofNat) (.ofNat b) = some (.ofNat (deposit ps b)) := by
  -- after the positions before `i`, what is left to deposit are those from `i` on
  have h : ∀ d i offset, i + d = ps.length → (List.range' i d).foldlM
      (WordSupport.deposit? (ps.map .ofNat) (.ofNat b)) (.ofNat offset) =
        some (.ofNat (offset ||| deposit (ps.drop i) b)) := by
    intro d
    induction d with
    | zero =>
      intro i offset hi
      rw [List.drop_of_length_le (by omega)]
      simp [deposit]
    | succ d ih =>
      intro i offset hi
      have hi' : i < ps.length := by omega
      rw [List.range'_succ, List.foldlM_cons, deposit?_eq hps hlen hb offset hi']
      refine (ih (i + 1) _ (by omega)).trans ?_
      rw [List.drop_eq_getElem_cons hi', deposit, List.length_drop, Nat.or_assoc, Nat.sub_sub,
        Nat.add_comm 1]
  have h0 := h ps.length 0 0 (Nat.zero_add _)
  rw [WordSupport.offset?, List.length_map, List.range_eq_range']
  rwa [List.drop_zero, Nat.zero_or] at h0

end Offsets

theorem mergeSort_map_ofNat {ps : List Nat} (hps : ∀ p ∈ ps, p < UInt64.size) :
    (ps.map UInt64.ofNat).mergeSort = ps.mergeSort.map .ofNat := by
  refine (List.map_mergeSort fun p hp q hq => ?_).symm
  exact decide_eq_decide.2 (UInt64.ofNat_le_iff_le (hps p hp) (hps q hq)).symm

theorem position?_eq {width q : Nat} (hwidth : width ≤ 63) (hq : q < width) :
    WordSupport.position? (.ofNat width) (.ofNat q) = some (.ofNat (width - 1 - q)) := by
  have hsize : 63 < UInt64.size := by decide
  have hlast : sub? (.ofNat width) 1 = some (.ofNat (width - 1)) :=
    sub?_ofNat (y := 1) (by omega) (by omega)
  rw [WordSupport.position?, bind_of_some hlast]
  exact sub?_ofNat (by omega) (by omega)

theorem ofQubits?_eq {width : Nat} (hwidth : width ≤ 63) {qubits : List Nat}
    (hcount : qubits.length ≤ 3) (hr : ∀ q ∈ qubits, q < width) :
    WordSupport.ofQubits? (.ofNat width) (qubits.map .ofNat) =
      some (onQubits width qubits).onWords := by
  have hpos : ∀ p ∈ (onQubits width qubits).positions, p < 64 := fun p hp =>
    (lt_of_mem_onQubits hr p hp).trans_le (hwidth.trans (by decide))
  have hlen : (onQubits width qubits).positions.length ≤ 3 := by
    rwa [← count, count_onQubits]
  have hpositions : (qubits.map .ofNat).mapM (WordSupport.position? (.ofNat width)) =
      some ((onQubits width qubits).positions.map .ofNat) := by
    rw [List.mapM_map, onQubits, List.map_map]
    exact mapM_eq_some fun q hq => position?_eq hwidth (hr q hq)
  have hrows := one_shiftLeft?_ofNat (p := (onQubits width qubits).positions.length) (by omega)
  have hlt := one_shiftLeft_lt (p := (onQubits width qubits).positions.length) (by omega)
  have hoffsets : ((List.range (onQubits width qubits).classSize).mapM fun b =>
      WordSupport.offset? ((onQubits width qubits).positions.map .ofNat) (.ofNat b)) =
        some ((onQubits width qubits).offsets.map .ofNat) := by
    rw [offsets, List.map_map]
    exact mapM_eq_some fun b hb =>
      offset?_eq hpos (by omega) ((List.mem_range.1 hb).trans hlt)
  rw [WordSupport.ofQubits?, bind_of_some hpositions, List.length_map, bind_of_some hrows,
    toNat_ofNat hlt, ← count, ← classSize, bind_of_some hoffsets,
    mergeSort_map_ofNat fun p hp => (hpos p hp).trans (by decide)]
  rfl

theorem le_insertZero (r p : Nat) : r ≤ insertZero r p := by
  rw [insertZero_eq]
  exact Nat.le_add_right ..

theorem le_foldl_insertZero (ps : List Nat) (r : Nat) : r ≤ ps.foldl insertZero r := by
  induction ps generalizing r with
  | nil => exact Nat.le_refl r
  | cons p ps ih => exact (le_insertZero r p).trans (ih (insertZero r p))

theorem insertZero?_eq {r p : Nat} (hp : p < 63) (h : insertZero r p < UInt64.size) :
    WordSupport.insertZero? (.ofNat r) (.ofNat p) = some (.ofNat (insertZero r p)) := by
  have hr : r < UInt64.size := (le_insertZero r p).trans_lt h
  have hhigh : (r >>> p) <<< (p + 1) < UInt64.size := Nat.left_le_or.trans_lt h
  have hsize : 64 < UInt64.size := by decide
  have hones : sub? (.ofNat (1 <<< p)) 1 = some (.ofNat (1 <<< p - 1)) :=
    sub?_ofNat (y := 1) (by rw [Nat.one_shiftLeft]; exact Nat.one_le_two_pow)
      (one_shiftLeft_lt (by omega))
  have hlow : r &&& (1 <<< p - 1) = r % (1 <<< p) := by
    rw [Nat.one_shiftLeft, Nat.and_two_pow_sub_one_eq_mod]
  have hnext : add? (.ofNat p) 1 = some (.ofNat (p + 1)) := add?_ofNat (y := 1) (by omega)
  rw [WordSupport.insertZero?, bind_of_some (one_shiftLeft?_ofNat (by omega)), bind_of_some hones,
    bind_of_some (shiftRight?_ofNat (by omega) hr), bind_of_some hnext,
    bind_of_some (shiftLeft?_ofNat (by omega) hhigh), ← UInt64.ofNat_and, hlow, ← UInt64.ofNat_or]
  rfl

section Loops

variable {s : Support}

theorem mask?_eq (hps : ∀ p ∈ s.positions, p < 64) : s.onWords.mask? = some (.ofNat s.mask) := by
  refine foldlM_map_of_invariant UInt64.ofNat UInt64.ofNat (fun _ => True) (b := 0)
    (fun p hp mask _ => ⟨?_, trivial⟩) trivial
  rw [bind_of_some (one_shiftLeft?_ofNat (hps p hp)), ← UInt64.ofNat_or]
  rfl

/-- A row number has one bit for each position, so reading another bit loses none. -/
theorem localIndex?_eq (hps : ∀ p ∈ s.positions, p < 64) (hcount : s.count ≤ 63) {i : Nat}
    (hi : i < UInt64.size) : s.onWords.localIndex? (.ofNat i) = some (.ofNat (s.localIndex i)) := by
  refine foldlM_map_eq_some UInt64.ofNat UInt64.ofNat
    (fun ps b => (∀ p ∈ ps, p < 64) ∧ b < 2 ^ (63 - ps.length) ∧ ps.length ≤ 63) (b := 0)
    (fun p ps b ⟨h, hb, hlen⟩ => ?_) ⟨hps, Nat.two_pow_pos _, hcount⟩
  rw [List.length_cons] at hb hlen
  have hdouble : b <<< 1 < 2 ^ (63 - ps.length) := by
    rw [show 63 - ps.length = 63 - (ps.length + 1) + 1 by omega, Nat.pow_succ, Nat.shiftLeft_eq]
    omega
  have hbit : (i >>> p) % 2 < 2 ^ (63 - ps.length) :=
    (Nat.mod_lt _ (by decide)).trans_le (Nat.le_self_pow (by omega) 2)
  have hfit := two_pow_lt_size (Nat.sub_le 63 ps.length)
  have hshift : shiftLeft? (.ofNat b) 1 = some (.ofNat (b <<< 1)) :=
    shiftLeft?_ofNat (by decide) (hdouble.trans hfit)
  refine ⟨?_, fun q hq => h q (by simp [hq]), Nat.or_lt_two_pow hdouble hbit, by omega⟩
  rw [bind_of_some hshift, bind_of_some (shiftRight?_ofNat (h p (by simp)) hi),
    ← Nat.and_one_is_mod, UInt64.ofNat_or, UInt64.ofNat_and]
  rfl

theorem representative?_eq (hps : ∀ p ∈ s.positions, p < 63) {r : Nat}
    (h : s.representative r < UInt64.size) :
    s.onWords.representative? (.ofNat r) = some (.ofNat (s.representative r)) := by
  refine foldlM_map_eq_some UInt64.ofNat UInt64.ofNat
    (fun ps r => (∀ p ∈ ps, p < 63) ∧ ps.foldl insertZero r < UInt64.size)
    (fun p ps r ⟨hps, h⟩ => ⟨?_, fun q hq => hps q (by simp [hq]), h⟩)
    ⟨fun p hp => hps p (mem_ascending.1 hp), h⟩
  exact insertZero?_eq (hps p (by simp)) ((le_foldl_insertZero ps _).trans_lt h)

theorem getElem?_ascending_zero (hne : s.positions ≠ []) :
    s.onWords.ascending[0]? = some (.ofNat s.lowest) := by
  rw [onWords, List.getElem?_map, ← List.head?_eq_getElem?, lowest,
    List.head?_eq_some_head (ascending_ne_nil hne)]
  rfl

theorem getElem?_ascending_last (hne : s.positions ≠ []) :
    s.onWords.ascending[s.count - 1]? = some (.ofNat s.highest) := by
  rw [onWords, List.getElem?_map, ← length_ascending, ← List.getLast?_eq_getElem?, highest,
    List.getLast?_eq_some_getLast (ascending_ne_nil hne)]
  rfl

theorem representatives?_eq {m length : Nat} (hd : s.positions.Nodup)
    (hm : ∀ p ∈ s.positions, p < m) (hm63 : m ≤ 63) (hdvd : 2 ^ m ∣ length)
    (hlen : length < UInt64.size) :
    s.onWords.representatives? (.ofNat length) = some ((s.representatives length).map .ofNat) := by
  have hcount : s.count ≤ 63 := (count_le_of_lt hd hm).trans hm63
  rw [WordSupport.representatives?, count_onWords,
    bind_of_some (shiftRight?_ofNat (Nat.lt_succ_of_le hcount) hlen), representatives, List.map_map,
    toNat_ofNat ((Nat.shiftRight_le ..).trans_lt hlen)]
  refine mapM_eq_some fun r hr => representative?_eq (fun p hp => (hm p hp).trans_le hm63) ?_
  have hmem : s.representative r ∈ s.representatives length := List.mem_map_of_mem hr
  exact ((mem_representatives_iff hd hm hdvd).1 hmem).1.trans hlen

end Loops

end Support

end Ket
