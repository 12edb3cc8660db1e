import Ket.Proofs.Json.Skip

/-! Reading of records by name. An object may have blanks around its keys and values, escapes in its
keys, and members that nobody knows. What each member makes of the draft so far, which may be a
failure, adds up to what the object makes of it. An object that was written without blanks and with
the keys of the fields is a case of this. -/

namespace Ket.Json

variable {σ β : Type} {fields : List (Field σ)}

section Keys

theorem stringText_append (s : String) (rest : List Char) :
    stringText s ++ rest = '"' :: (s.toList ++ '"' :: rest) := by
  simp [stringText]

theorem nextKey_close (isFirst : Bool) (rest : List Char) :
    nextKey isFirst ('}' :: rest) = .ok (none, '}' :: rest) := by
  rw [nextKey, bind_of_ok (peek_cons (by decide) rest)]
  rfl

theorem quoted_spells {text key : List Char} (h : Spells text key) (rest : List Char) :
    (do advance; return some (← string) : Reader (Option (List Char)))
      ('"' :: (text ++ '"' :: rest)) = .ok (some key, rest) := by
  rw [bind_of_ok (advance_cons _ _), bind_of_ok (string_spells h rest)]
  rfl

/-- What stands behind the key of a member. -/
def Member.rest (m : Member) : List Char := m.after.text ++ ':' :: m.item.text

variable {m : Member} {key : List Char}

theorem nextKey_first (h : Spells m.key key) (s : List Char) :
    nextKey true (m.text ++ s) = .ok (some key, m.rest ++ s) := by
  simp only [Member.text, Member.rest, List.append_assoc, List.cons_append]
  rw [ignoresBlanks_nextKey true m.before, nextKey, bind_of_ok (peek_cons (by decide) _)]
  exact quoted_spells h _

theorem nextKey_later (h : Spells m.key key) (s : List Char) :
    nextKey false (',' :: (m.text ++ s)) = .ok (some key, m.rest ++ s) := by
  have hpeek (s : List Char) : peek (m.before.text ++ '"' :: s) = .ok (some '"', '"' :: s) :=
    (ignoresBlanks_peek m.before _).trans (peek_cons (by decide) s)
  simp only [Member.text, Member.rest, List.append_assoc, List.cons_append]
  rw [nextKey, bind_of_ok (peek_cons (by decide) _)]
  simp only [Bool.false_eq_true, if_false]
  rw [bind_of_ok (advance_cons _ _), bind_of_ok (hpeek _)]
  exact quoted_spells h _

end Keys

section Rounds

variable {draft : σ} {key s s' : List Char} {isFirst : Bool}

/-- One round of the loop, after its key. -/
theorem membersLoop_of_known {next : σ} {field : Field σ} {rest : List Char}
    (hkey : nextKey isFirst s = .ok (some key, s'))
    (hknown : fields.find? (·.name == key) = some field) (hnew : field.isSet draft = false)
    (hread : (do mark ':'; field.read draft : Reader σ) s' = .ok (next, rest)) (fuel : Nat) :
    membersLoop fields (fuel + 1) isFirst draft s = membersLoop fields fuel false next rest := by
  rw [membersLoop, hkey]
  simp only [hknown, hnew, Bool.false_eq_true, if_false]
  rw [hread]

/-- A key that was there before is refused whatever stands behind it. -/
theorem membersLoop_of_repeated {field : Field σ}
    (hkey : nextKey isFirst s = .ok (some key, s'))
    (hknown : fields.find? (·.name == key) = some field) (hset : field.isSet draft = true)
    (fuel : Nat) : membersLoop fields (fuel + 1) isFirst draft s = .error .mismatch := by
  have hvalue : (do
      if field.isSet draft then throw .mismatch
      mark ':'
      field.read draft : Reader σ) s' = .error .mismatch := by
    rw [if_pos hset]
    rfl
  rw [membersLoop, hkey]
  simp only [hknown]
  rw [hvalue]

theorem membersLoop_of_unknown {rest : List Char} (hkey : nextKey isFirst s = .ok (some key, s'))
    (hunknown : fields.find? (·.name == key) = none)
    (hskip : (do mark ':'; skipValue : Reader Unit) s' = .ok ((), rest)) (fuel : Nat) :
    membersLoop fields (fuel + 1) isFirst draft s = membersLoop fields fuel false draft rest := by
  have hvalue : (do mark ':'; skipValue; return draft : Reader σ) s' = .ok (draft, rest) := by
    obtain ⟨_, t, hmark, hskip⟩ := bind_eq_ok_iff.1 hskip
    rw [bind_of_ok hmark, bind_of_ok hskip]
    rfl
  rw [membersLoop, hkey]
  simp only [hunknown]
  rw [hvalue]

theorem markColon_rest {r : Reader β} {m : Member} {x : β} {s : List Char}
    (h : r (m.item.before.text ++ (m.item.value ++ (m.item.after.text ++ s))) =
      .ok (x, m.item.after.text ++ s)) :
    (do mark ':'; r : Reader β) (m.rest ++ s) = .ok (x, m.item.after.text ++ s) := by
  simp only [Member.rest, Item.text, List.append_assoc, List.cons_append]
  rw [((ignoresBlanks_mark ':').bind _) m.after, bind_of_ok (mark_cons (by decide) _), h]

theorem ignoresBlanks_membersLoop (fuel : Nat) (isFirst : Bool) (draft : σ) :
    IgnoresBlanks (membersLoop fields fuel isFirst draft) := by
  intro gap s
  cases fuel with
  | zero => rfl
  | succ fuel => rw [membersLoop, membersLoop, ignoresBlanks_nextKey isFirst gap]

end Rounds

section Members

/-- What a member makes of a draft, wherever it stands in an object. -/
structure Takes (fields : List (Field σ)) (draft : σ) (m : Member) (result : Except Fault σ) :
    Prop where
  first : ∀ (fuel : Nat) (rest : List Char), Follows rest →
    membersLoop fields (fuel + 1) true draft (m.text ++ rest) =
      result >>= fun next => membersLoop fields fuel false next rest
  later : ∀ (fuel : Nat) (rest : List Char), Follows rest →
    membersLoop fields (fuel + 1) false draft (',' :: (m.text ++ rest)) =
      result >>= fun next => membersLoop fields fuel false next rest

variable {draft : σ} {m : Member} {key : List Char}

theorem takes_of_round {result : Except Fault σ} (hkey : Spells m.key key)
    (h : ∀ {isFirst : Bool} {s rest : List Char} (fuel : Nat), Follows rest →
      nextKey isFirst s = .ok (some key, m.rest ++ rest) →
      membersLoop fields (fuel + 1) isFirst draft s =
        result >>= fun next => membersLoop fields fuel false next rest) :
    Takes fields draft m result where
  first fuel rest hrest := h fuel hrest (nextKey_first hkey rest)
  later fuel rest hrest := h fuel hrest (nextKey_later hkey rest)

theorem takes_known {field : Field σ} {next : σ} (hkey : Spells m.key key)
    (hknown : fields.find? (·.name == key) = some field) (hnew : field.isSet draft = false)
    (hread : ∀ rest, Follows rest →
      field.read draft (m.item.before.text ++ (m.item.value ++ rest)) = .ok (next, rest)) :
    Takes fields draft m (.ok next) := by
  refine takes_of_round hkey fun {isFirst s rest} fuel hrest hnext => ?_
  have hvalue := hread _ (m.item.after.follows hrest)
  rw [membersLoop_of_known hnext hknown hnew (markColon_rest hvalue), ignoresBlanks_membersLoop]
  rfl

theorem takes_repeated {field : Field σ} (hkey : Spells m.key key)
    (hknown : fields.find? (·.name == key) = some field) (hset : field.isSet draft = true) :
    Takes fields draft m (.error .mismatch) :=
  takes_of_round hkey fun fuel _ hnext => membersLoop_of_repeated hnext hknown hset fuel

/-- What nobody knows changes nothing. -/
theorem takes_unknown (hkey : Spells m.key key) (hunknown : fields.find? (·.name == key) = none)
    (hvalue : IsValue m.item.value) : Takes fields draft m (.ok draft) := by
  refine takes_of_round hkey fun {isFirst s rest} fuel hrest hnext => ?_
  have hskip := skipValue_item m.item hvalue (m.item.after.follows hrest)
  rw [membersLoop_of_unknown hnext hunknown (markColon_rest hskip), ignoresBlanks_membersLoop]
  rfl

end Members

section Objects

/-- What members make of a draft one after the other. Nothing is read behind a failure. -/
inductive Makes (fields : List (Field σ)) : σ → List Member → Except Fault σ → Prop
  | nil (draft : σ) : Makes fields draft [] (.ok draft)
  | cons {draft next : σ} {m : Member} {members : List Member} {result : Except Fault σ}
      (takes : Takes fields draft m (.ok next)) (rest : Makes fields next members result) :
      Makes fields draft (m :: members) result
  | fail {draft : σ} {m : Member} {members : List Member} {e : Fault}
      (takes : Takes fields draft m (.error e)) : Makes fields draft (m :: members) (.error e)

theorem makes_foldlM {ε : Type} {entries : List ε} {member : ε → Member}
    {take : σ → ε → Except Fault σ}
    (h : ∀ e ∈ entries, ∀ draft, Takes fields draft (member e) (take draft e)) (draft : σ) :
    Makes fields draft (entries.map member) (entries.foldlM take draft) := by
  induction entries generalizing draft with
  | nil => exact .nil draft
  | cons e entries ih =>
    obtain ⟨he, hentries⟩ := List.forall_mem_cons.1 h
    have htakes := he draft
    rw [List.map_cons, List.foldlM_cons]
    cases htake : take draft e with
    | error fault => exact .fail (htake ▸ htakes)
    | ok next => exact .cons (htake ▸ htakes) (ih hentries next)

variable {draft : σ} {members : List Member} {result : Except Fault σ}

theorem membersLoop_later (h : Makes fields draft members result) {fuel : Nat}
    (hf : members.length < fuel) (rest : List Char) :
    membersLoop fields fuel false draft
        ((members.map (·.text)).flatMap (',' :: ·) ++ '}' :: rest) =
      result.map (·, '}' :: rest) := by
  -- a round takes one member and one unit of fuel, and one more round sees the closing brace
  induction h generalizing fuel with
  | nil draft =>
    obtain ⟨fuel, rfl⟩ := Nat.exists_eq_succ_of_ne_zero (Nat.ne_of_gt hf)
    rw [List.map_nil, List.flatMap_nil, List.nil_append, membersLoop, nextKey_close]
    rfl
  | @cons draft next m members result takes _ ih =>
    obtain ⟨fuel, rfl⟩ := Nat.exists_eq_succ_of_ne_zero (Nat.ne_of_gt (Nat.zero_lt_of_lt hf))
    have hfollows := follows_flatMap (members.map (·.text)) (follows_brace rest)
    simp only [List.map_cons, List.flatMap_cons, List.append_assoc, List.cons_append]
    rw [takes.later _ _ hfollows]
    exact ih (Nat.lt_of_succ_lt_succ hf)
  | @fail draft m members e takes =>
    obtain ⟨fuel, rfl⟩ := Nat.exists_eq_succ_of_ne_zero (Nat.ne_of_gt (Nat.zero_lt_of_lt hf))
    have hfollows := follows_flatMap (members.map (·.text)) (follows_brace rest)
    simp only [List.map_cons, List.flatMap_cons, List.append_assoc, List.cons_append]
    rw [takes.later _ _ hfollows]
    rfl

theorem members_eq (h : Makes fields draft members result) (gap : Gap) (rest : List Char) :
    Json.members fields draft
        (gap.text ++ (separated (members.map (·.text)) ++ '}' :: rest)) =
      result.map (·, '}' :: rest) := by
  rw [Json.members, ignoresBlanks_membersLoop]
  cases h with
  | nil =>
    rw [List.map_nil, separated, List.nil_append, membersLoop, nextKey_close]
    rfl
  | @cons _ next m members _ takes h =>
    have hfollows := follows_flatMap (members.map (·.text)) (follows_brace rest)
    have hlength := length_le_flatMap (members.map (·.text))
    rw [List.length_map] at hlength
    rw [List.map_cons, separated_cons, List.append_assoc, takes.first _ _ hfollows]
    refine membersLoop_later h ?_ rest
    simp only [List.length_append, List.length_cons]
    omega
  | @fail _ m members e takes =>
    have hfollows := follows_flatMap (members.map (·.text)) (follows_brace rest)
    rw [List.map_cons, separated_cons, List.append_assoc, takes.first _ _ hfollows]
    rfl

theorem record_eq (h : Makes fields draft members result) {finish : σ → Option β} {make : σ → β}
    (hfinish : ∀ last, result = .ok last → finish last = some (make last)) (before gap : Gap)
    (rest : List Char) :
    record fields draft finish (before.text ++ (bracedText gap members ++ rest)) =
      result.map fun last => (make last, rest) := by
  have hmembers := members_eq h gap rest
  have hblanks : IgnoresBlanks (record fields draft finish) := ignoresBlanks_start.bind _
  rw [hblanks]
  simp only [bracedText, List.cons_append, List.append_assoc, List.nil_append]
  rw [record, bind_of_ok (start_cons (by decide) _)]
  simp only
  rw [bind_of_ok (advance_cons _ _)]
  cases result with
  | error e => exact bind_of_error hmembers
  | ok last =>
    rw [bind_of_ok hmembers, bind_of_ok (complete_eq (hfinish last rfl) _),
      bind_of_ok (mark_cons (by decide) _)]
    rfl

/-- A document that holds an object, with blanks around it. -/
theorem document_record (h : Makes fields draft members result) {text : String}
    {before gap after : Gap}
    (htext : text.toList = before.text ++ (bracedText gap members ++ after.text))
    {finish : σ → Option β} {make : σ → β}
    (hfinish : ∀ last, result = .ok last → finish last = some (make last)) :
    document (record fields draft finish) text = result.map make := by
  have hread := record_eq h hfinish before gap after.text
  have hend : Json.finish after.text = .ok ((), []) := by
    have hblanks := ignoresBlanks_finish after []
    rwa [List.append_nil, finish_nil] at hblanks
  rw [document, htext]
  cases result with
  | error e =>
    rw [bind_of_error hread]
    rfl
  | ok last =>
    rw [bind_of_ok hread, bind_of_ok hend]
    rfl

end Objects

section Written

/-- A value as it is written, without blanks. -/
def Item.written (value : List Char) : Item := ⟨.none, value, .none⟩

/-- A member as it is written, without blanks and escapes. -/
def Member.written (entry : String × List Char) : Member :=
  ⟨.none, entry.1.toList, .none, .written entry.2⟩

theorem bracedText_written (entries : List (String × List Char)) :
    bracedText .none (entries.map Member.written) = objectText entries := by
  have hmember (entry : String × List Char) :
      (Member.written entry).text = stringText entry.1 ++ ':' :: entry.2 := by
    simp [Member.written, Item.written, Member.text, Item.text, Gap.none, stringText]
  rw [objectText, bracedText, List.map_map, Gap.none, List.nil_append]
  congr 3
  exact List.map_congr_left fun entry _ => hmember entry

/-- Reading entries with these keys and values, one after the other, turns the first draft into the
last one. -/
inductive Fills (fields : List (Field σ)) : σ → List (String × List Char) → σ → Prop
  | nil (draft : σ) : Fills fields draft [] draft
  | cons {draft next last : σ} {key : String} {value : List Char}
      {entries : List (String × List Char)} {field : Field σ}
      (plain : isPlainWord key)
      (known : fields.find? (·.name == key.toList) = some field)
      (new : field.isSet draft = false)
      (reads : Reads (field.read draft) value next)
      (rest : Fills fields next entries last) :
      Fills fields draft ((key, value) :: entries) last

theorem Fills.append {first next last : σ} {entries entries' : List (String × List Char)}
    (h : Fills fields first entries next) (h' : Fills fields next entries' last) :
    Fills fields first (entries ++ entries') last := by
  induction h with
  | nil => exact h'
  | cons plain known new reads _ ih => exact .cons plain known new reads (ih h')

theorem Fills.makes {draft last : σ} {entries : List (String × List Char)}
    (h : Fills fields draft entries last) :
    Makes fields draft (entries.map Member.written) (.ok last) := by
  induction h with
  | nil draft => exact .nil draft
  | cons plain known new reads _ ih =>
    exact .cons (takes_known (spells_plain plain) known new reads.read) ih

theorem reads_record {empty last : σ} {finish : σ → Option β} {x : β}
    {entries : List (String × List Char)} (h : Fills fields empty entries last)
    (hfinish : finish last = some x) :
    Reads (record fields empty finish) (objectText entries) x where
  opens := opens_cons _ (by decide) (by decide)
  read rest _ := by
    have hmake : ∀ last', (.ok last : Except Fault σ) = .ok last' → finish last' = some x := by
      rintro _ ⟨rfl⟩
      exact hfinish
    rw [← bracedText_written]
    exact record_eq h.makes hmake .none .none rest

end Written

end Ket.Json
