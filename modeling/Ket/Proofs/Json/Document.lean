import Ket.Proofs.Circuit.Reachable
import Ket.Proofs.Json.Object

/-! Documents that were written are read as what they were written from. An instruction is read as
itself whether it fits a register or not, so the checks of a circuit that is read see the same
instructions in the same order as the checks of a circuit that is built. -/

namespace Ket.Json

section Operands

theorem reads_qubit (q : Qubit) : Reads qubit (qubitText q) q :=
  (reads_uint32 q.id).bind fun _ => rfl

theorem shape_named {g : Gate} {names : List String} (h : shape g = .named names) :
    names.length = g.arity ∧ names.Nodup ∧ angleName ∉ names ∧
      ∀ name ∈ names, isPlainWord name := by
  cases g with
  | one g => cases h
  | two g => cases g <;> cases h <;> decide
  | three g => cases g <;> cases h <;> decide
  | rotation axis =>
    cases h
    exact ⟨rfl, by decide, by decide, by decide⟩
  | pairRotation axis =>
    cases h
    exact ⟨rfl, by decide, by decide, by decide⟩
  | measure => cases h

theorem exists_qubit_of_single {i : Instruction Float} (h : shape i.gate = .single) :
    ∃ q, i.qubits = [q] ∧ Instruction.make? i.gate [q] 0 = some i := by
  cases i with
  | one g q => exact ⟨q, rfl, rfl⟩
  | two g a b => cases g <;> cases h
  | three g a b c => cases g <;> cases h
  | rotation axis θ q => cases h
  | pairRotation axis θ a b => cases h
  | measure q => exact ⟨q, rfl, rfl⟩

theorem exists_swap_of_tuple {i : Instruction Float} (h : shape i.gate = .tuple) :
    ∃ a b, i = .two .swap a b := by
  cases i with
  | one g q => cases h
  | two g a b =>
    cases g with
    | swap => exact ⟨a, b, rfl⟩
    | _ => cases h
  | three g a b c => cases g <;> cases h
  | rotation axis θ q => cases h
  | pairRotation axis θ a b => cases h
  | measure q => cases h

theorem find?_eq_none_of_notMem {names : List String} {key : String} (h : key ∉ names) :
    (names.zipIdx.map fun (name, place) => Draft.qubitField name place).find?
      (·.name == key.toList) = none := by
  refine List.find?_eq_none.2 fun field hfield => ?_
  obtain ⟨⟨name, place⟩, hmem, rfl⟩ := List.mem_map.1 hfield
  have hne : name ≠ key := fun hname => h (hname ▸ List.fst_mem_of_mem_zipIdx hmem)
  simpa [Draft.qubitField, Field.of, String.toList_inj] using hne

theorem find?_qubitField {done todo : List String} {name : String}
    (hnd : (done ++ name :: todo).Nodup) (g : Gate) :
    (Draft.fields g (done ++ name :: todo)).find? (·.name == name.toList) =
      some (Draft.qubitField name done.length) := by
  have hnew : name ∉ done := fun hmem => (List.nodup_append.1 hnd).2.2 _ hmem _ (by simp) rfl
  rw [Draft.fields, List.zipIdx_append, List.map_append, List.append_assoc, List.find?_append,
    find?_eq_none_of_notMem hnew, Option.none_or, List.zipIdx_cons, List.map_cons,
    List.cons_append, List.find?_cons_of_pos (by simp [Draft.qubitField, Field.of]), Nat.zero_add]

theorem find?_angleField {g : Gate} (hg : g.isRotation = true) {names : List String}
    (h : angleName ∉ names) :
    (Draft.fields g names).find? (·.name == angleName.toList) = some Draft.angleField := by
  rw [Draft.fields, if_pos hg, List.find?_append, find?_eq_none_of_notMem h, Option.none_or,
    List.find?_cons_of_pos (by simp [Draft.angleField, Field.of])]

namespace Draft

/-- The first operands are read, and some are left. -/
def filled (taken : List Qubit) (left : Nat) : Draft :=
  ⟨taken.map some ++ List.replicate left none, none⟩

theorem isSet_qubitField (name : String) (taken : List Qubit) (left : Nat) :
    (qubitField name taken.length).isSet (filled taken (left + 1)) = false := by
  simp [qubitField, Field.of, filled]

theorem reads_qubitField (name : String) (taken : List Qubit) (left : Nat) (q : Qubit) :
    Reads ((qubitField name taken.length).read (filled taken (left + 1))) (qubitText q)
      (filled (taken ++ [q]) left) := by
  refine (reads_qubit q).bind fun rest => ?_
  simp only [filled, List.replicate_succ]
  rw [List.set_append_right _ _ (by simp)]
  simp
  rfl

theorem fills_qubits {g : Gate} {names : List String} (hnd : names.Nodup)
    (hplain : ∀ name ∈ names, isPlainWord name) (done : List String)
    {todo : List String} (hnames : names = done ++ todo) (taken : List Qubit)
    (htaken : taken.length = done.length) {qs : List Qubit} (hqs : qs.length = todo.length) :
    Fills (fields g names) (filled taken todo.length) (todo.zip (qs.map qubitText))
      (filled (taken ++ qs) 0) := by
  -- the names in `done` were read into `taken`, so the next qubit goes to place `taken.length`
  induction todo generalizing done taken qs with
  | nil =>
    cases qs with
    | nil => simpa using Fills.nil (filled taken 0)
    | cons q qs => cases hqs
  | cons name todo ih =>
    cases qs with
    | nil => cases hqs
    | cons q qs =>
      have hknown := find?_qubitField (hnames ▸ hnd) g
      have hrest := ih (done ++ [name]) (by simpa using hnames) (taken ++ [q])
        (by simp [htaken]) (Nat.succ.inj hqs)
      rw [← hnames, ← htaken] at hknown
      rw [List.append_assoc] at hrest
      exact .cons (hplain name (by simp [hnames])) hknown (isSet_qubitField name taken _)
        (reads_qubitField name taken _ q) hrest

theorem finish_eq (i : Instruction Float) :
    finish i.gate ⟨i.qubits.map some, i.angle?⟩ = some i := by
  cases i <;> rfl

theorem fills_angle {g : Gate} (hg : g.isRotation = true) {names : List String}
    (hnames : angleName ∉ names) {θ : Float} (hθ : ReadsBack θ) (qubits : List (Option Qubit)) :
    Fills (fields g names) ⟨qubits, none⟩ [(angleName, floatText θ)] ⟨qubits, some θ⟩ :=
  .cons (by decide) (find?_angleField hg hnames) rfl ((reads_float hθ).bind fun _ => rfl) (.nil _)

/-- The operands of an instruction by name, its angle after them. -/
theorem fills_operands {i : Instruction Float} {names : List String}
    (hshape : shape i.gate = .named names) (h : ∀ θ ∈ i.angle?, ReadsBack θ) :
    Fills (fields i.gate names) (empty i.gate)
      (names.zip (i.qubits.map qubitText) ++ i.angle?.toList.map fun θ => (angleName, floatText θ))
      ⟨i.qubits.map some, i.angle?⟩ := by
  obtain ⟨hlength, hnd, hangle, hplain⟩ := shape_named hshape
  have hqubits := fills_qubits (g := i.gate) hnd hplain [] rfl [] rfl
    (i.length_qubits.trans hlength.symm)
  rw [hlength] at hqubits
  have hrotation := i.isSome_angle?
  cases hθ : i.angle? with
  | none => simpa [filled, empty] using hqubits
  | some θ =>
    rw [hθ] at hrotation
    have hlast := fills_angle hrotation.symm hangle (h θ hθ) (i.qubits.map some)
    refine Fills.append ?_ hlast
    simpa [filled, empty] using hqubits

end Draft

theorem reads_operands (i : Instruction Float) (h : ∀ θ ∈ i.angle?, ReadsBack θ) :
    Reads (operands i.gate) (operandsText i) i := by
  cases hshape : shape i.gate with
  | single =>
    obtain ⟨q, hqubits, hmake⟩ := exists_qubit_of_single hshape
    simp only [operands, operandsText, hshape, hqubits, List.map_cons, List.map_nil,
      List.flatten_cons, List.flatten_nil, List.append_nil]
    exact (reads_qubit q).bind fun rest => complete_eq hmake rest
  | tuple =>
    obtain ⟨a, b, rfl⟩ := exists_swap_of_tuple hshape
    simp only [operands, operandsText, hshape]
    have hplaces : Places (Draft.fields (.two .swap) ["", ""]) (.filled [] 2)
        [qubitText a, qubitText b] (.filled [a, b] 0) :=
      .cons (Draft.reads_qubitField "" [] 1 a) (.cons (Draft.reads_qubitField "" [a] 0 b) (.nil _))
    exact reads_tuple hplaces rfl
  | named names =>
    simp only [operands, operandsText, hshape]
    exact reads_record (Draft.fills_operands hshape h) (Draft.finish_eq i)

end Operands

theorem isPlainWord_tag (g : Gate) : isPlainWord g.tag := by
  cases g with
  | one g => cases g <;> decide
  | two g => cases g <;> decide
  | three g => cases g <;> decide
  | rotation axis => cases axis <;> decide
  | pairRotation axis => cases axis <;> decide
  | measure => decide

theorem tagKey_eq (g : Gate) (rest : List Char) :
    tagKey (stringText g.tag ++ ':' :: rest) = .ok (g, rest) := by
  have htag (s : List Char) : tag g.tag.toList s = .ok (g, s) := by
    rw [tag, String.ofList_toList, Gate.ofTag?_tag]
    rfl
  rw [stringText_append, tagKey, bind_of_ok (mark_cons (by decide) _),
    bind_of_ok (string_plain (isPlainWord_tag g) _), bind_of_ok (htag _),
    bind_of_ok (mark_cons (by decide) _)]
  rfl

theorem reads_instruction (i : Instruction Float) (h : ∀ θ ∈ i.angle?, ReadsBack θ) :
    Reads instruction (instructionText i) i where
  opens := opens_cons _ (by decide) (by decide)
  read rest _ := by
    have htext : instructionText i ++ rest =
        '{' :: (stringText i.gate.tag ++ ':' :: (operandsText i ++ '}' :: rest)) := by
      simp [instructionText, objectText, separated]
    have hoperands := (reads_operands i h).read _ (follows_brace rest)
    rw [htext, instruction, bind_of_ok (start_cons (by decide) _)]
    simp only
    rw [bind_of_ok (advance_cons _ _), bind_of_ok (tagKey_eq _ _), bind_of_ok hoperands,
      bind_of_ok (mark_cons (by decide) rest)]
    rfl

theorem reads_program (width : UInt32) {is : List (Instruction Float)}
    (h : ∀ i ∈ is, ∀ θ ∈ i.angle?, ReadsBack θ) :
    Reads program (programText width is) (width, is) := by
  have hlist := reads_list fun i hi => reads_instruction i (h i hi)
  have hfills : Fills Program.fields {} [("num_qubits", natText width.toNat),
      ("instructions", arrayText (is.map instructionText))] ⟨some width, some is.toArray⟩ :=
    .cons (by decide) rfl rfl ((reads_uint32 width).bind fun _ => rfl) <|
      .cons (by decide) rfl rfl (hlist.bind fun _ => rfl) (.nil _)
  exact reads_record hfills rfl

theorem circuit_programText (width : UInt32) {is : List (Instruction Float)}
    (h : ∀ i ∈ is, ∀ θ ∈ i.angle?, ReadsBack θ) :
    circuit (String.ofList (programText width is)) =
      match Circuit.ofInstructions width is with
      | .ok c => .ok c
      | .error e => .error (.refused e) := by
  have hread := (reads_program width h).read [] follows_nil
  rw [List.append_nil] at hread
  simp only [circuit, String.toList_ofList, hread, finish_nil]
  cases Circuit.ofInstructions width is <;> rfl

/-- What is read of a written circuit is what is built from its width and its instructions, and the
refusal is the same as well. A circuit or an instruction that was written is read as itself. -/
theorem read_written_eq_build :
    (∀ (width : UInt32) (is : List (Instruction Float)),
      (∀ i ∈ is, ∀ θ ∈ i.angle?, ReadsBack θ) →
      (circuit (String.ofList (programText width is)) =
        match (do is.foldlM Circuit.append (← Circuit.empty width)) with
        | .ok c => .ok c
        | .error e => .error (.refused e)) ∧
      ∀ e, circuit (String.ofList (programText width is)) = .error (.refused e) ↔
        (width = 0 ∧ e = .noQubits) ∨ ∃ before i after c, is = before ++ i :: after ∧
          (do before.foldlM Circuit.append (← Circuit.empty width)) = .ok c ∧
          c.append i = .error e) ∧
    (∀ c : Circuit Float, c.Reachable → (∀ i ∈ c.instructions, ∀ θ ∈ i.angle?, ReadsBack θ) →
      circuit (String.ofList (circuitText c)) = .ok c) ∧
    ∀ i : Instruction Float, (∀ θ ∈ i.angle?, ReadsBack θ) →
      document instruction (String.ofList (instructionText i)) = .ok i := by
  refine ⟨fun width is h => ⟨circuit_programText width h, fun e => ?_⟩, fun c hc h => ?_,
    fun i h => (reads_instruction i h).document⟩
  · rw [circuit_programText width h]
    refine Iff.trans ?_ Circuit.ofInstructions_eq_error_iff
    cases Circuit.ofInstructions width is with
    | ok c => exact ⟨nofun, nofun⟩
    | error e' => simp
  · have his : ∀ i ∈ c.instructions.toList, ∀ θ ∈ i.angle?, ReadsBack θ := fun i hi =>
      h i (Array.mem_toList_iff.1 hi)
    rw [circuitText, circuit_programText c.width his, hc.wellFormed.ofInstructions_eq]

/-- The first program is well formed. The second one uses a qubit twice before it uses one that does
not exist, and the instruction alone need not fit any register. -/
theorem read_written_eq_build_on_two :
    (∃ c : Circuit Float, c.Reachable ∧
      c.instructions = #[.rotation .x 0.5 (.ofNat 1), .two .swap (.ofNat 1) (.ofNat 0)] ∧
      circuit (String.ofList (circuitText c)) = .ok c) ∧
    circuit (String.ofList (programText 2 [.pairRotation .z 0.5 (.ofNat 0) (.ofNat 1),
        .two .cx (.ofNat 1) (.ofNat 1), .one .h (.ofNat 5)])) =
      .error (.refused (.operand (.two .cx) (.ofNat 1) .repeated 2)) ∧
    document instruction (String.ofList (instructionText (.rotation .y 0.5 (.ofNat 7)))) =
      .ok (.rotation .y 0.5 (.ofNat 7)) := by
  obtain ⟨hprogram, hcircuit, hinstruction⟩ := read_written_eq_build
  have hangle {i : Instruction Float} (hi : i.angle? = none ∨ i.angle? = some 0.5) :
      ∀ θ ∈ i.angle?, ReadsBack θ := by
    intro θ hθ
    rcases hi with hi | hi <;> rw [hi] at hθ <;> cases hθ
    exact readsBack_half
  refine ⟨?_, ?_, hinstruction _ (hangle (.inr rfl))⟩
  · have hbuild : Circuit.ofInstructions 2 [.rotation .x (0.5 : Float) (.ofNat 1),
        .two .swap (.ofNat 1) (.ofNat 0)] = .ok ⟨2, _⟩ := rfl
    refine ⟨_, .converted hbuild, rfl, hcircuit _ (.converted hbuild) fun i hi => hangle ?_⟩
    rcases List.mem_cons.1 (Array.mem_toList_iff.2 hi) with rfl | hi
    · exact .inr rfl
    · cases List.mem_singleton.1 hi
      exact .inl rfl
  · refine (hprogram 2 _ fun i hi => hangle ?_).1.trans rfl
    simp only [List.mem_cons, List.not_mem_nil, or_false] at hi
    rcases hi with rfl | rfl | rfl
    · exact .inr rfl
    · exact .inl rfl
    · exact .inl rfl

end Ket.Json
