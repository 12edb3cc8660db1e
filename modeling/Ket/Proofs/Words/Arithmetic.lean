import Mathlib.Data.UInt

/-! Arithmetic of machine words with 64 bits, which is arithmetic modulo `2 ^ 64`. An operation here
has an outcome only if it is used as it is meant to be: a shift amount is below 64, nothing larger
is subtracted, and the word that comes out is the number that unbounded arithmetic gives. So a left
shift has no outcome if it loses a set bit, and neither has a sum that wraps. -/

namespace Ket.Word

/-- A word that was computed for the number `x`. -/
def faithful? (w : UInt64) (x : Nat) : Option UInt64 := if w.toNat = x then some w else none

def shiftLeft? (x n : UInt64) : Option UInt64 :=
  if n < 64 then faithful? (x <<< n) (x.toNat <<< n.toNat) else none

def shiftRight? (x n : UInt64) : Option UInt64 :=
  if n < 64 then faithful? (x >>> n) (x.toNat >>> n.toNat) else none

def sub? (x y : UInt64) : Option UInt64 :=
  if y ≤ x then faithful? (x - y) (x.toNat - y.toNat) else none

def add? (x y : UInt64) : Option UInt64 := faithful? (x + y) (x.toNat + y.toNat)

def mul? (x y : UInt64) : Option UInt64 := faithful? (x * y) (x.toNat * y.toNat)

def div? (x y : UInt64) : Option UInt64 :=
  if y = 0 then none else faithful? (x / y) (x.toNat / y.toNat)

theorem toNat_ofNat {x : Nat} (hx : x < UInt64.size) : (UInt64.ofNat x).toNat = x :=
  UInt64.toNat_ofNat_of_lt' hx

theorem two_pow_lt_size {m : Nat} (hm : m ≤ 63) : 2 ^ m < UInt64.size :=
  Nat.pow_lt_pow_right (by decide) (Nat.lt_succ_of_le hm)

theorem ofNat_inj {x y : Nat} (hx : x < UInt64.size) (hy : y < UInt64.size) :
    UInt64.ofNat x = .ofNat y ↔ x = y := by
  rw [← UInt64.toNat_inj, toNat_ofNat hx, toNat_ofNat hy]

theorem faithful?_ofNat {x : Nat} (hx : x < UInt64.size) :
    faithful? (.ofNat x) x = some (.ofNat x) :=
  if_pos (toNat_ofNat hx)

theorem ofNat_lt_sixtyFour {n : Nat} (hn : n < 64) : UInt64.ofNat n < 64 :=
  UInt64.lt_iff_toNat_lt.2 ((toNat_ofNat (hn.trans (by decide))).trans_lt hn)

section Operations

variable {x y n : Nat}

theorem shiftLeft?_ofNat (hn : n < 64) (h : x <<< n < UInt64.size) :
    shiftLeft? (.ofNat x) (.ofNat n) = some (.ofNat (x <<< n)) := by
  have hx : x < UInt64.size := Nat.le_shiftLeft.trans_lt h
  rw [shiftLeft?, if_pos (ofNat_lt_sixtyFour hn), ← UInt64.ofNat_shiftLeft x n hn, toNat_ofNat hx,
    toNat_ofNat (hn.trans (by decide)), faithful?_ofNat h]

theorem shiftRight?_ofNat (hn : n < 64) (hx : x < UInt64.size) :
    shiftRight? (.ofNat x) (.ofNat n) = some (.ofNat (x >>> n)) := by
  have hle : x >>> n < UInt64.size := (Nat.shiftRight_le ..).trans_lt hx
  have hn' := toNat_ofNat (hn.trans (by decide))
  have hw : UInt64.ofNat x >>> .ofNat n = .ofNat (x >>> n) := by
    rw [← UInt64.toNat_inj, UInt64.toNat_shiftRight, toNat_ofNat hx, hn', Nat.mod_eq_of_lt hn,
      toNat_ofNat hle]
  rw [shiftRight?, if_pos (ofNat_lt_sixtyFour hn), hw, toNat_ofNat hx, hn', faithful?_ofNat hle]

theorem sub?_ofNat (hy : y ≤ x) (hx : x < UInt64.size) :
    sub? (.ofNat x) (.ofNat y) = some (.ofNat (x - y)) := by
  have hy' := hy.trans_lt hx
  rw [sub?, if_pos ((UInt64.ofNat_le_iff_le hy' hx).2 hy), ← UInt64.ofNat_sub hy, toNat_ofNat hx,
    toNat_ofNat hy', faithful?_ofNat ((Nat.sub_le ..).trans_lt hx)]

theorem add?_ofNat (h : x + y < UInt64.size) :
    add? (.ofNat x) (.ofNat y) = some (.ofNat (x + y)) := by
  rw [add?, ← UInt64.ofNat_add, toNat_ofNat (by omega), toNat_ofNat (by omega), faithful?_ofNat h]

theorem mul?_ofNat (hx : x < UInt64.size) (hy : y < UInt64.size) (h : x * y < UInt64.size) :
    mul? (.ofNat x) (.ofNat y) = some (.ofNat (x * y)) := by
  rw [mul?, ← UInt64.ofNat_mul, toNat_ofNat hx, toNat_ofNat hy, faithful?_ofNat h]

theorem div?_ofNat (hx : x < UInt64.size) (hy : y < UInt64.size) (hpos : 0 < y) :
    div? (.ofNat x) (.ofNat y) = some (.ofNat (x / y)) := by
  have hne : UInt64.ofNat y ≠ 0 := fun h => hpos.ne' ((ofNat_inj hy (by decide)).1 h)
  rw [div?, if_neg hne, ← UInt64.ofNat_div hx hy, toNat_ofNat hx, toNat_ofNat hy,
    faithful?_ofNat ((Nat.div_le_self ..).trans_lt hx)]

theorem ofNat_min (hx : x < UInt64.size) (hy : y < UInt64.size) :
    min (UInt64.ofNat x) (.ofNat y) = .ofNat (min x y) := by
  rw [Nat.min_def, apply_ite UInt64.ofNat]
  exact if_congr (UInt64.ofNat_le_iff_le hx hy) rfl rfl

end Operations

/-- The bits of a word that are not masked, which the complement of the mask keeps. -/
theorem ofNat_and_not (x m : Nat) :
    UInt64.ofNat x &&& ~~~(.ofNat m) = .ofNat (x ^^^ (x &&& m)) := by
  rw [UInt64.ofNat_xor, UInt64.ofNat_and, ← UInt64.toBitVec_inj]
  ext i
  simp only [UInt64.toBitVec_and, UInt64.toBitVec_not, UInt64.toBitVec_xor, BitVec.getElem_and,
    BitVec.getElem_not, BitVec.getElem_xor]
  cases (UInt64.ofNat x).toBitVec[i] <;> simp

section Loops

variable {α β : Type}

theorem bind_of_some {x : Option α} {a : α} (h : x = some a) (f : α → Option β) :
    (x >>= f) = f a := by
  rw [h]
  rfl

theorem mapM_eq_some {f : α → Option β} {g : α → β} {l : List α} (h : ∀ x ∈ l, f x = some (g x)) :
    l.mapM f = some (l.map g) := by
  induction l with
  | nil => rfl
  | cons x l ih =>
    rw [List.mapM_cons, h x (by simp), ih fun y hy => h y (by simp [hy])]
    rfl

/-- A loop on words does what the loop on numbers does, if each of its steps does. What a step
relies on is told of the steps to come and of what the steps before left. -/
theorem foldlM_map_eq_some {α' β' : Type} (φ : β → β') (ψ : α → α') {f : β' → α' → Option β'}
    {g : β → α → β} (P : List α → β → Prop)
    (h : ∀ x l b, P (x :: l) b → f (φ b) (ψ x) = some (φ (g b x)) ∧ P l (g b x)) {l : List α}
    {b : β} (hb : P l b) : (l.map ψ).foldlM f (φ b) = some (φ (l.foldl g b)) := by
  induction l generalizing b with
  | nil => rfl
  | cons x l ih =>
    obtain ⟨hx, hnext⟩ := h x l b hb
    rw [List.map_cons, List.foldlM_cons, bind_of_some hx]
    exact ih hnext

theorem foldlM_map_of_invariant {α' β' : Type} (φ : β → β') (ψ : α → α')
    {f : β' → α' → Option β'} {g : β → α → β} (P : β → Prop) {l : List α}
    (h : ∀ x ∈ l, ∀ b, P b → f (φ b) (ψ x) = some (φ (g b x)) ∧ P (g b x)) {b : β} (hb : P b) :
    (l.map ψ).foldlM f (φ b) = some (φ (l.foldl g b)) := by
  refine foldlM_map_eq_some φ ψ (fun l' b => l' ⊆ l ∧ P b) (fun x l' b ⟨hl, hb⟩ => ?_)
    ⟨List.Subset.refl l, hb⟩
  obtain ⟨hx, hnext⟩ := h x (hl (List.mem_cons_self ..)) b hb
  exact ⟨hx, List.subset_of_cons_subset hl, hnext⟩

end Loops

end Ket.Word
