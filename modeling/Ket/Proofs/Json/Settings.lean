import Ket.Proofs.Json.Object
import Mathlib.Data.List.Nodup
import Mathlib.Data.List.Perm.Basic

/-! Documents that give some of the settings. What they give is read whatever the order is and
whatever else they hold, what they do not give is as by default, and none is given twice. -/

namespace Ket

namespace Settings

inductive Name
  | maxQubits
  | parallelThreshold
  | parallel
deriving DecidableEq

/-- Those that are named are as in `v`. -/
def replace (c : Settings) (names : List Name) (v : Settings) : Settings where
  maxQubits := if .maxQubits ∈ names then v.maxQubits else c.maxQubits
  parallelThreshold :=
    if .parallelThreshold ∈ names then v.parallelThreshold else c.parallelThreshold
  parallel := if .parallel ∈ names then v.parallel else c.parallel

theorem replace_replace (c v : Settings) (names names' : List Name) :
    (c.replace names v).replace names' v = c.replace (names ++ names') v := by
  simp only [replace, List.mem_append, mk.injEq]
  refine ⟨?_, ?_, ?_⟩ <;> grind

end Settings

namespace Json

open Settings (Name)

def settingKey : Name → String
  | .maxQubits => "max_qubits"
  | .parallelThreshold => "parallel_threshold"
  | .parallel => "parallel"

def settingText (v : Settings) : Name → List Char
  | .maxQubits => natText v.maxQubits.toNat
  | .parallelThreshold => natText v.parallelThreshold.toNat
  | .parallel => boolText v.parallel

def settingEntry (v : Settings) (name : Name) : String × List Char :=
  (settingKey name, settingText v name)

/-- A member gives a setting as it is in `v`, or it is of another name and holds any value. -/
inductive Gives (m : Member) : Option (Name × Settings) → Prop
  | setting {name : Name} {v : Settings} (key : Spells m.key (settingKey name).toList)
      (value : m.item.value = settingText v name) : Gives m (some (name, v))
  | other {key : List Char} (spells : Spells m.key key)
      (unknown : ∀ name, key ≠ (settingKey name).toList) (value : IsValue m.item.value) :
      Gives m none

/-- The text is an object that gives these settings in this order, and between them anything. -/
inductive IsSettings (text : String) : List (Name × Settings) → Prop
  | object {members : List (Member × Option (Name × Settings))} (before gap after : Gap)
      (gives : ∀ m ∈ members, Gives m.1 m.2)
      (text_eq : text.toList =
        before.text ++ (bracedText gap (members.map (·.1)) ++ after.text)) :
      IsSettings text (members.filterMap (·.2))

namespace SettingsDraft

def isSet (d : SettingsDraft) : Name → Bool
  | .maxQubits => d.maxQubits.isSome
  | .parallelThreshold => d.parallelThreshold.isSome
  | .parallel => d.parallel.isSome

def set (d : SettingsDraft) (given : Name × Settings) : SettingsDraft :=
  match given with
  | (.maxQubits, v) => { d with maxQubits := some v.maxQubits }
  | (.parallelThreshold, v) => { d with parallelThreshold := some v.parallelThreshold }
  | (.parallel, v) => { d with parallel := some v.parallel }

/-- What a member that gives this, or nothing, makes of a draft. -/
def take (d : SettingsDraft) (given : Option (Name × Settings)) : Except Fault SettingsDraft :=
  match given with
  | none => .ok d
  | some given => if d.isSet given.1 then .error .mismatch else .ok (d.set given)

def made (d : SettingsDraft) : Settings := (finish d).getD {}

theorem isSet_set (d : SettingsDraft) (given : Name × Settings) (name : Name) :
    (d.set given).isSet name = true ↔ name = given.1 ∨ d.isSet name = true := by
  obtain ⟨name', v⟩ := given
  cases name' <;> cases name <;> simp [set, isSet]

theorem set_comm (d : SettingsDraft) {given given' : Name × Settings} (h : given.1 ≠ given'.1) :
    (d.set given).set given' = (d.set given').set given := by
  obtain ⟨name, v⟩ := given
  obtain ⟨name', v'⟩ := given'
  cases name <;> cases name' <;> first | rfl | exact absurd rfl h

theorem made_set (d : SettingsDraft) (name : Name) (v : Settings) :
    (d.set (name, v)).made = d.made.replace [name] v := by
  cases name <;> rfl

theorem made_foldl_set (v : Settings) (names : List Name) (d : SettingsDraft) :
    ((names.map (·, v)).foldl set d).made = d.made.replace names v := by
  induction names generalizing d with
  | nil => rfl
  | cons name names ih =>
    rw [List.map_cons, List.foldl_cons, ih, made_set, Settings.replace_replace,
      List.singleton_append]

theorem foldlM_take_filterMap {ε : Type} (entries : List ε) (give : ε → Option (Name × Settings))
    (d : SettingsDraft) :
    entries.foldlM (fun d e => d.take (give e)) d =
      (entries.filterMap give).foldlM (fun d given => d.take (some given)) d := by
  induction entries generalizing d with
  | nil => rfl
  | cons e entries ih =>
    rw [List.foldlM_cons]
    cases hgive : give e with
    | none =>
      rw [List.filterMap_cons_none hgive, ← ih]
      rfl
    | some given =>
      rw [List.filterMap_cons_some hgive, List.foldlM_cons]
      simp only [ih]

/-- All is set if nothing was set before and nothing is given twice. -/
theorem foldlM_take_eq (given : List (Name × Settings)) (d : SettingsDraft) :
    given.foldlM (fun d given => d.take (some given)) d =
      if (given.map (·.1)).Nodup ∧ ∀ p ∈ given, d.isSet p.1 = false then .ok (given.foldl set d)
      else .error .mismatch := by
  induction given generalizing d with
  | nil => rfl
  | cons p given ih =>
    rw [List.foldlM_cons]
    cases hset : d.isSet p.1 with
    | true =>
      rw [if_neg fun h => by simp [h.2 p List.mem_cons_self] at hset]
      simp only [take, hset, if_true]
      rfl
    | false =>
      have hrest : (∀ q ∈ given, (d.set p).isSet q.1 = false) ↔
          p.1 ∉ given.map (·.1) ∧ ∀ q ∈ given, d.isSet q.1 = false := by
        simp only [← Bool.not_eq_true, isSet_set]
        grind
      simp only [take, hset, Bool.false_eq_true, if_false]
      refine (ih (d.set p)).trans ?_
      simp only [hrest, List.map_cons, List.nodup_cons, List.forall_mem_cons, hset, true_and,
        List.foldl_cons]
      grind

end SettingsDraft

theorem reads_bool (b : Bool) : Reads bool (boolText b) b := by
  cases b <;> exact ⟨opens_cons _ (by decide) (by decide), fun _ _ => rfl⟩

/-- The field that stands under a key is set by the text of the setting. -/
theorem exists_field (name : Name) :
    ∃ field, SettingsDraft.fields.find? (·.name == (settingKey name).toList) = some field ∧
      (∀ d, field.isSet d = d.isSet name) ∧ (∀ d, IgnoresBlanks (field.read d)) ∧
      ∀ d v, Reads (field.read d) (settingText v name) (d.set (name, v)) := by
  cases name with
  | maxQubits =>
    exact ⟨_, rfl, fun _ => rfl, fun _ => ignoresBlanks_uint32.bind _,
      fun d v => (reads_uint32 v.maxQubits).bind fun _ => rfl⟩
  | parallelThreshold =>
    exact ⟨_, rfl, fun _ => rfl, fun _ => ignoresBlanks_uint32.bind _,
      fun d v => (reads_uint32 v.parallelThreshold).bind fun _ => rfl⟩
  | parallel =>
    exact ⟨_, rfl, fun _ => rfl, fun _ => ignoresBlanks_bool.bind _,
      fun d v => (reads_bool v.parallel).bind fun _ => rfl⟩

theorem find?_eq_none_of_unknown {key : List Char}
    (h : ∀ name, key ≠ (settingKey name).toList) :
    SettingsDraft.fields.find? (·.name == key) = none := by
  have hnames : ∀ field ∈ SettingsDraft.fields, ∃ name, field.name = (settingKey name).toList := by
    simp only [SettingsDraft.fields, List.forall_mem_cons, List.not_mem_nil, false_imp_iff,
      implies_true, and_true]
    exact ⟨⟨.maxQubits, rfl⟩, ⟨.parallelThreshold, rfl⟩, ⟨.parallel, rfl⟩⟩
  refine List.find?_eq_none.2 fun field hfield => ?_
  obtain ⟨name, hname⟩ := hnames field hfield
  rw [hname, beq_iff_eq]
  exact (h name).symm

theorem Gives.takes {m : Member} {given : Option (Name × Settings)} (h : Gives m given)
    (d : SettingsDraft) : Takes SettingsDraft.fields d m (d.take given) := by
  cases h with
  | @setting name v key value =>
    obtain ⟨field, hknown, hset, hblanks, hread⟩ := exists_field name
    rw [SettingsDraft.take]
    split
    · rename_i hrepeated
      exact takes_repeated key hknown ((hset d).trans hrepeated)
    · rename_i hnew
      refine takes_known key hknown ((hset d).trans (Bool.eq_false_iff.2 hnew)) fun rest hrest => ?_
      rw [hblanks d m.item.before, value]
      exact (hread d v).read rest hrest
  | other spells unknown value =>
    exact takes_unknown spells (find?_eq_none_of_unknown unknown) value

theorem document_settings {text : String} {given : List (Name × Settings)}
    (h : IsSettings text given) :
    document settings text =
      if (given.map (·.1)).Nodup then .ok (given.foldl SettingsDraft.set {}).made
      else .error .mismatch := by
  obtain ⟨before, gap, after, hgives, htext⟩ := h
  rename_i members
  have hmakes := makes_foldlM (fun m hm d => (hgives m hm).takes d) {}
  have hunset : ∀ p ∈ members.filterMap (·.2), ({} : SettingsDraft).isSet p.1 = false := by
    intro p _
    cases p.1 <;> rfl
  have hmade (d : SettingsDraft) : SettingsDraft.finish d = some d.made := rfl
  rw [settings, document_record hmakes htext fun d _ => hmade d,
    SettingsDraft.foldlM_take_filterMap, SettingsDraft.foldlM_take_eq,
    if_congr (and_iff_left hunset) rfl rfl]
  split <;> rfl

theorem ofJson_eq {text : String} {given : List (Name × Settings)} (h : IsSettings text given) :
    Settings.ofJson text =
      if (given.map (·.1)).Nodup then .ok (given.foldl SettingsDraft.set {}).made
      else .error (.config .mismatch) := by
  rw [Settings.ofJson, document_settings h]
  by_cases hnames : (given.map (·.1)).Nodup
  · rw [if_pos hnames, if_pos hnames]
  · rw [if_neg hnames, if_neg hnames]

theorem ofJson_of_nodup {text : String} {names : List Name} {v : Settings}
    (hnames : names.Nodup) (h : IsSettings text (names.map (·, v))) :
    Settings.ofJson text = .ok (({} : Settings).replace names v) := by
  have hkeys : (names.map (·, v)).map (·.1) = names := by
    rw [List.map_map]
    exact List.map_id names
  rw [ofJson_eq h, hkeys, if_pos hnames, SettingsDraft.made_foldl_set]
  rfl

/-- Settings that differ in their names are set in any order. -/
theorem foldl_set_perm {given given' : List (Name × Settings)} (hperm : given.Perm given')
    (hnames : (given.map (·.1)).Nodup) (d : SettingsDraft) :
    given.foldl SettingsDraft.set d = given'.foldl SettingsDraft.set d := by
  refine hperm.foldl_eq' (fun p hp q hq d => ?_) d
  by_cases hpq : p.1 = q.1
  · rw [List.inj_on_of_nodup_map hnames hp hq hpq]
  · exact d.set_comm hpq

theorem ofJson_perm {text text' : String} {given given' : List (Name × Settings)}
    (hperm : given.Perm given') (h : IsSettings text given) (h' : IsSettings text' given') :
    Settings.ofJson text = Settings.ofJson text' := by
  rw [ofJson_eq h, ofJson_eq h', if_congr (hperm.map (·.1)).nodup_iff rfl rfl]
  split
  · rename_i hnames
    rw [foldl_set_perm hperm ((hperm.map (·.1)).nodup_iff.2 hnames)]
  · rfl

/-- Names and values without blanks, and nothing else. -/
theorem isSettings_objectText (v : Settings) (names : List Name) :
    IsSettings (String.ofList (objectText (names.map (settingEntry v)))) (names.map (·, v)) := by
  have hplain (name : Name) : isPlainWord (settingKey name) := by cases name <;> decide
  have hgives : ∀ m ∈ names.map fun name => (Member.written (settingEntry v name), some (name, v)),
      Gives m.1 m.2 := by
    intro m hm
    obtain ⟨name, -, rfl⟩ := List.mem_map.1 hm
    exact .setting (spells_plain (hplain name)) rfl
  have hgiven : (names.map fun name =>
      (Member.written (settingEntry v name), some (name, v))).filterMap (·.2) =
        names.map (·, v) := by
    rw [List.filterMap_map, ← List.filterMap_eq_map]
    rfl
  refine hgiven ▸ .object .none .none .none hgives ?_
  rw [String.toList_ofList, ← bracedText_written, List.map_map, List.map_map, Gap.none,
    List.append_nil, List.nil_append]
  rfl

/-- Any settings, in any order and between any other members, replace what is so by default, and
what was written is read back. A setting that is given twice is an error of the configuration, and
its fault is a mismatch. -/
theorem read_settings :
    (∀ (v : Settings) (names : List Name) (text : String), names.Nodup →
      IsSettings text (names.map (·, v)) →
      Settings.ofJson text = .ok (({} : Settings).replace names v)) ∧
    (∀ v : Settings, Settings.ofJson (String.ofList (settingsText v)) = .ok v) ∧
    (∀ (given given' : List (Name × Settings)) (text text' : String), given.Perm given' →
      IsSettings text given → IsSettings text' given' →
      Settings.ofJson text = Settings.ofJson text') ∧
    ∀ (given : List (Name × Settings)) (text : String), ¬ (given.map (·.1)).Nodup →
      IsSettings text given → Settings.ofJson text = .error (.config .mismatch) := by
  refine ⟨fun v names text hnames h => ofJson_of_nodup hnames h, fun v => ?_,
    fun given given' text text' hperm h h' => ofJson_perm hperm h h',
    fun given text hnames h => ?_⟩
  · exact ofJson_of_nodup (by decide)
      (isSettings_objectText v [.maxQubits, .parallelThreshold, .parallel])
  · rw [ofJson_eq h, if_neg hnames]

/-- Two numbers, an object without members, and a string that is a surrogate alone. -/
theorem isValue_note :
    IsValue (bracketedText .none
      [.written ['1'], .written ['-', '2', '.', '5', 'e', '+', '3'],
        .written (bracedText .none []),
        .written ('"' :: (['\\', 'u', 'd', '8', '0', '0'] ++ ['"']))]) := by
  have hwhole : IsNumber ['1'] :=
    @IsNumber.parts [] ['1'] [] [] (.inl rfl)
      (.digits (by decide) (List.all_eq_true.1 rfl)) .none .none
  have hexponent : IsExponent ['e', '+', '3'] :=
    @IsExponent.digits 'e' ['+'] '3' [] (.inl rfl) (.inr (.inl rfl))
      (List.all_eq_true.1 rfl)
  have hreal : IsNumber ['-', '2', '.', '5', 'e', '+', '3'] :=
    @IsNumber.parts ['-'] ['2'] ['.', '5'] ['e', '+', '3'] (.inr rfl)
      (.digits (by decide) (List.all_eq_true.1 rfl)) (.digits (List.all_eq_true.1 rfl)) hexponent
  have hempty : IsValue (bracedText .none []) := .object .none (by simp) (by simp)
  have hlone : IsString ['\\', 'u', 'd', '8', '0', '0'] :=
    @IsString.unit ['d', '8', '0', '0'] [] _
      (@IsUnit.digits 'd' '8' '0' '0' 13 8 0 0 rfl rfl rfl rfl) .nil
  refine .array .none ?_
  simp only [List.forall_mem_cons]
  exact ⟨.number hwhole, .number hreal, hempty, .string hlone, by simp⟩

/-- An object with blanks, with an escape in a key, and with a member that nobody knows. -/
def noted : String :=
  "\x7b \"note\":[1,-2.5e+3,\x7b\x7d,\"\\ud800\"],\"parallel\": false,\"max\\u005fqubits\":20\x7d "

theorem isSettings_noted :
    IsSettings noted [(.parallel, ⟨20, 3, false⟩), (.maxQubits, ⟨20, 3, false⟩)] := by
  have hnote : Spells "note".toList "note".toList := spells_plain (by decide)
  have hparallel : Spells "parallel".toList "parallel".toList := spells_plain (by decide)
  have hqubits : Spells ['q', 'u', 'b', 'i', 't', 's'] ['q', 'u', 'b', 'i', 't', 's'] :=
    spells_plain (by decide)
  have hescape : Spells ['\\', 'u', '0', '0', '5', 'f', 'q', 'u', 'b', 'i', 't', 's']
      ['_', 'q', 'u', 'b', 'i', 't', 's'] :=
    .unit (@IsUnit.digits '0' '0' '5' 'f' 0 0 5 15 rfl rfl rfl rfl) rfl rfl hqubits
  have hmax : Spells ['m', 'a', 'x', '\\', 'u', '0', '0', '5', 'f', 'q', 'u', 'b', 'i', 't', 's']
      (settingKey .maxQubits).toList := .plain rfl (.plain rfl (.plain rfl hescape))
  have hunknown : ∀ name, "note".toList ≠ (settingKey name).toList := by
    intro name
    cases name <;> decide
  have hother : Gives ⟨.space, _, .none, .written _⟩ none := .other hnote hunknown isValue_note
  have hfirst : Gives ⟨.none, _, .none, ⟨.space, boolText false, .none⟩⟩
      (some (.parallel, ⟨20, 3, false⟩)) := .setting hparallel rfl
  have hsecond : Gives ⟨.none, _, .none, .written (natText 20)⟩
      (some (.maxQubits, ⟨20, 3, false⟩)) := .setting hmax rfl
  have hgives : ∀ m ∈ [(_, none), (_, _), (_, _)], Gives m.1 m.2 :=
    List.forall_mem_cons.2 ⟨hother, List.forall_mem_cons.2 ⟨hfirst,
      List.forall_mem_cons.2 ⟨hsecond, by simp⟩⟩⟩
  exact .object .none .none .space hgives (by decide)

/-- The other order is read without blanks. The last text gives a setting twice. -/
theorem read_settings_noted :
    Settings.ofJson noted = .ok ⟨20, 14, false⟩ ∧
    Settings.ofJson noted = Settings.ofJson "\x7b\"max_qubits\":20,\"parallel\":false\x7d" ∧
    Settings.ofJson "\x7b\"parallel\":false,\"parallel\":false\x7d" =
      .error (.config .mismatch) := by
  obtain ⟨hread, -, hperm, hrepeated⟩ := read_settings
  have hother := isSettings_objectText ⟨20, 3, false⟩ [.maxQubits, .parallel]
  have htwice := isSettings_objectText ⟨20, 3, false⟩ [.parallel, .parallel]
  refine ⟨?_, ?_, ?_⟩
  · exact hread ⟨20, 3, false⟩ [.parallel, .maxQubits] _ (by decide) isSettings_noted
  · exact hperm _ _ _ _ (.swap _ _ _) isSettings_noted hother
  · exact hrepeated _ _ (by decide) htwice

end Json

end Ket
