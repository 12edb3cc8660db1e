import Ket.Proofs.Application.Blocks
import Ket.Proofs.Words.Support
import Ket.State

/-! Application with its indices computed on machine words, where an index that is out of range has
no outcome either, be it of the amplitudes, of a run or of the matrix. In registers of up to 63
qubits there always is an outcome, and it is that of the application on unbounded numbers. -/

namespace Ket

open Word

variable {α : Type}

def write? (a : Array α) (i : Nat) (x : α) : Option (Array α) :=
  if i < a.size then some (a.setIfInBounds i x) else none

theorem write?_eq {a : Array α} {i : Nat} (hi : i < a.size) (x : α) :
    write? a i x = some (a.setIfInBounds i x) := if_pos hi

namespace State

variable [Zero α] [One α]

def zero? (width : UInt64) : Option (Except RegisterError (State α)) :=
  if width = 0 ∨ 64 ≤ width then some (.error (.registerWidth width.toNat))
  else do
    let size ← shiftLeft? 1 width
    return .ok ⟨width.toNat, ← write? (Array.replicate size.toNat 0) 0 1⟩

theorem zero?_eq (width : UInt64) :
    (zero? width : Option (Except RegisterError (State α))) = some (zero width.toNat) := by
  have hzero : width = 0 ↔ width.toNat = 0 := UInt64.toNat_inj.symm
  have hge : 64 ≤ width ↔ maxWidth < width.toNat := UInt64.le_iff_toNat_le
  rw [zero?, zero]
  simp only [hzero, hge]
  split
  case isTrue => rfl
  case isFalse h =>
    rw [not_or, Nat.not_lt] at h
    have hwidth : width.toNat < 64 := Nat.lt_succ_of_le h.2
    have hsize := Support.one_shiftLeft?_ofNat hwidth
    rw [UInt64.ofNat_toNat] at hsize
    have hpos : 0 < (Array.replicate (1 <<< width.toNat) (0 : α)).size := by
      rw [Array.size_replicate, Nat.one_shiftLeft]
      exact Nat.two_pow_pos _
    rw [bind_of_some hsize, toNat_ofNat (Support.one_shiftLeft_lt hwidth),
      bind_of_some (write?_eq hpos 1)]
    rfl

end State

variable [Zero α]

def Grid.get? (g : Grid α) (r c : Nat) : Option α :=
  if r < g.rows ∧ c < g.cols then some (g.get r c) else none

theorem getElem?_eq_some_getD {a : Array α} {i : Nat} (hi : i < a.size) :
    a[i]? = some (a.getD i 0) := by
  rw [Array.getD_eq_getD_getElem?, Array.getElem?_eq_getElem hi, Option.getD_some]

namespace Operator

variable [Add α] [Mul α]

def transform? (op : Operator α) (column : List α) : Option (List α) :=
  (List.range column.length).mapM fun r =>
    (List.range column.length).foldlM
      (fun sum c => return sum + (← op.matrix.get? r c) * (← column[c]?)) 0

def applyToClass? (op : Operator α) (members : List UInt64) (a : Array α) : Option (Array α) := do
  let column ← members.mapM fun i => a[i.toNat]?
  let values ← op.transform? column
  (members.zip values).foldlM (fun a w => write? a w.1.toNat w.2) a

def applySequentially? (op : Operator α) (w : WordSupport) (a : Array α) : Option (Array α) := do
  let representatives ← w.representatives? (.ofNat a.size)
  representatives.foldlM (fun a rep => op.applyToClass? (w.offsets.map (rep ||| ·)) a) a

variable {op : Operator α} {s : Support}

theorem transform?_eq {column : List α} (hrows : op.matrix.rows = column.length)
    (hcols : op.matrix.cols = column.length) :
    op.transform? column = some (op.transform column) := by
  rw [transform?, transform, Grid.mulColumn, hrows, hcols]
  refine mapM_eq_some fun r hr => ?_
  have hloop := foldlM_map_of_invariant id id (f := fun sum c => do
      return sum + (← op.matrix.get? r c) * (← column[c]?))
    (g := fun sum c => sum + op.matrix.get r c * column.getD c 0) (fun _ => True)
    (l := List.range column.length) (fun c hc sum _ => ⟨?_, trivial⟩) (b := 0) trivial
  · rwa [List.map_id, ← Grid.total_eq_foldl] at hloop
  · rw [List.mem_range] at hr hc
    have hentry : op.matrix.get? r c = some (op.matrix.get r c) := if_pos (by omega)
    have hread : column[c]? = some (column.getD c 0) := by
      rw [List.getD_eq_getElem?_getD, List.getElem?_eq_getElem hc, Option.getD_some]
    simp only [id, bind_of_some hentry, bind_of_some hread]
    rfl

theorem applyToClass?_eq (hcols : op.matrix.cols = op.matrix.rows) {members : List Nat}
    (hlength : op.matrix.rows = members.length) {a : Array α} (hsize : a.size < UInt64.size)
    (hmembers : ∀ i ∈ members, i < a.size) :
    op.applyToClass? (members.map .ofNat) a = some (op.applyToClass members a) := by
  have hnat {i : Nat} (hi : i ∈ members) : (UInt64.ofNat i).toNat = i :=
    toNat_ofNat ((hmembers i hi).trans hsize)
  have hread : ((members.map .ofNat).mapM fun i : UInt64 => a[i.toNat]?) =
      some (gather a members) := by
    rw [List.mapM_map]
    refine mapM_eq_some fun i hi => ?_
    rw [Function.comp_apply, hnat hi, getElem?_eq_some_getD (hmembers i hi)]
  have hgather : (gather a members).length = members.length := List.length_map ..
  have htransform : op.transform? (gather a members) = some (op.transform (gather a members)) :=
    transform?_eq (hgather ▸ hlength) (hgather ▸ hcols.trans hlength)
  rw [applyToClass?, bind_of_some hread, bind_of_some htransform, List.zip_map_left]
  refine foldlM_map_of_invariant id (Prod.map UInt64.ofNat id) (fun b : Array α => b.size = a.size)
    (fun x hx b hb => ?_) rfl
  have hi := (List.of_mem_zip (a := x.1) (b := x.2) hx).1
  simp only [Prod.map_fst, Prod.map_snd, id, hnat hi]
  exact ⟨write?_eq (hb ▸ hmembers _ hi) x.2, by rw [Array.size_setIfInBounds, hb]⟩

theorem size_applyToClass (op : Operator α) (members : List Nat) (a : Array α) :
    (op.applyToClass members a).size = a.size := size_scatter ..

theorem applySequentially?_eq (h : op.Fits s) {m : Nat} (hm : ∀ p ∈ s.positions, p < m)
    (hm63 : m ≤ 63) {a : Array α} (hdvd : 2 ^ m ∣ a.size) (hsize : a.size < UInt64.size) :
    op.applySequentially? s.onWords a = some (op.applySequentially s a) := by
  have hreps := Support.representatives?_eq h.distinct hm hm63 hdvd hsize
  rw [applySequentially?, bind_of_some hreps]
  refine foldlM_map_of_invariant id UInt64.ofNat (fun b : Array α => b.size = a.size)
    (fun rep hrep b hb => ⟨?_, (size_applyToClass ..).trans hb⟩) rfl
  have hlt := ((Support.mem_representatives_iff h.distinct hm hdvd).1 hrep).1
  have hmembers := Support.lt_of_mem_members hm (hb ▸ hdvd) (hb ▸ hlt)
  have hwords : s.onWords.offsets.map (UInt64.ofNat rep ||| ·) = (s.members rep).map .ofNat := by
    rw [Support.onWords, Support.members, List.map_map, List.map_map]
    exact List.map_congr_left fun b _ => (UInt64.ofNat_or rep b).symm
  rw [hwords]
  exact applyToClass?_eq (h.cols.trans h.rows.symm) (h.rows.trans (Support.length_members ..).symm)
    (hb ▸ hsize) hmembers

section Blocks

/-- Cuts the array into blocks and processes each block on its own. -/
def applyToBlocks? (op : Operator α) (w : WordSupport) (block : UInt64) (a : Array α) :
    Option (Array α) := do
  return (← (pieces block.toNat a).mapM (op.applySequentially? w)).foldl (· ++ ·) #[]

theorem applyToBlocks?_eq (h : op.Fits s) {m : Nat} (hm : ∀ p ∈ s.positions, p < m)
    (hm63 : m ≤ 63) {a : Array α} (hdvd : 2 ^ m ∣ a.size) :
    op.applyToBlocks? s.onWords (.ofNat (2 ^ m)) a = some (op.applyToBlocks s (2 ^ m) a) := by
  have hlt := two_pow_lt_size hm63
  obtain ⟨n, hn⟩ := hdvd
  have hpieces : (pieces (2 ^ m) a).mapM (op.applySequentially? s.onWords) =
      some ((pieces (2 ^ m) a).map (op.applySequentially s)) := by
    refine mapM_eq_some fun b hb => ?_
    rw [pieces_eq (Nat.two_pow_pos m) hn, List.mem_map] at hb
    obtain ⟨k, hk, rfl⟩ := hb
    have hpiece := size_piece hn (List.mem_range.1 hk)
    exact applySequentially?_eq h hm hm63 hpiece.symm.dvd (hpiece.trans_lt hlt)
  rw [applyToBlocks?, toNat_ofNat hlt, bind_of_some hpieces]
  rfl

end Blocks

end Operator

end Ket
