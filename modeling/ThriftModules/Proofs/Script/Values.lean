import ThriftModules.Proofs.Script.Units

/-!
# What assigned values are

* `nestAfter?`, `IsNested` : characters in which every bracket is closed by its own closing bracket;
* `IsGroup` : a bracket, what it encloses and the bracket that closes it (`exists_group`);
* `Value.Heads` : what its class says stands at the start of a value, and what follows it; `Value.IsProper` : nothing
  follows;
* `Takes.drop` : a statement takes in what is left of it from any of its characters on;
* `isProper_iff` : a function or an object is one exactly if it starts as one and what follows cannot go on with it.
-/

namespace ThriftModules.Script

set_option autoImplicit false

/-! ## Nested brackets -/

def closer : Char → Char
  | '(' => ')'
  | '[' => ']'
  | _ => '}'

/-- The closing brackets that are still to come behind a character, if it may stand there. -/
def Mark.nest? (awaited : List Char) (m : Mark) : Option (List Char) :=
  if m.role ≠ .code then some awaited
  else if isOpening m.char then some (closer m.char :: awaited)
  else if isClosing m.char then if awaited.head? = some m.char then some awaited.tail else none
  else some awaited

/-- The closing brackets that are still to come behind characters, if these may stand there. -/
def nestAfter? (awaited : List Char) : List Mark → Option (List Char)
  | [] => some awaited
  | m :: ms => (m.nest? awaited).bind (nestAfter? · ms)

/-- Every bracket is closed by its own closing bracket, and every closing bracket closes one. -/
def IsNested (ms : List Mark) : Prop := nestAfter? [] ms = some []

instance (ms : List Mark) : Decidable (IsNested ms) := inferInstanceAs (Decidable (_ = _))

/-- An opening bracket, what it encloses, and the bracket that closes it. -/
def IsGroup (o : Char) (ms : List Mark) : Prop :=
  ∃ inner, ms = ⟨o, .code⟩ :: (inner ++ [⟨closer o, .code⟩]) ∧ IsNested inner

theorem isGroup_iff {o : Char} {ms : List Mark} :
    IsGroup o ms ↔
      ms.head? = some ⟨o, .code⟩ ∧ ms.tail.getLast? = some ⟨closer o, .code⟩ ∧ IsNested ms.tail.dropLast := by
  constructor
  · rintro ⟨inner, rfl, hinner⟩
    exact ⟨rfl, List.getLast?_concat, by rwa [List.tail_cons, List.dropLast_concat]⟩
  · rintro ⟨hhead, hlast, hinner⟩
    obtain ⟨rest, rfl⟩ := List.head?_eq_some_iff.1 hhead
    rw [List.tail_cons] at hlast hinner
    exact ⟨rest.dropLast, by rw [List.dropLast_append_getLast? _ hlast], hinner⟩

instance (o : Char) (ms : List Mark) : Decidable (IsGroup o ms) := decidable_of_iff _ isGroup_iff.symm

section
variable {awaited awaited' : List Char} {m : Mark} {ms : List Mark}

theorem nestAfter?_cons :
    nestAfter? awaited (m :: ms) = some awaited' ↔
      ∃ middle, m.nest? awaited = some middle ∧ nestAfter? middle ms = some awaited' := by
  rw [nestAfter?, Option.bind_eq_some_iff]

/-- What a character does to the brackets that are to be closed and to the depth: nothing, or it opens one, or it closes
the last one. -/
theorem Mark.nest?_cases (h : m.nest? awaited = some awaited') :
    (∀ s d, m.nest? s = some s ∧ m.depth d = d) ∧ awaited' = awaited ∨
      (∀ s d, m.nest? s = some (closer m.char :: s) ∧ m.depth d = d + 1) ∧ awaited' = closer m.char :: awaited ∨
      (∀ s d, m.nest? (m.char :: s) = some s ∧ m.depth (d + 1) = d) ∧ m.role = .code ∧
        awaited = m.char :: awaited' := by
  by_cases hrole : m.role ≠ .code
  · rw [nest?, if_pos hrole] at h
    cases h
    exact .inl ⟨fun s d => ⟨by rw [nest?, if_pos hrole], by rw [depth, if_pos hrole]⟩, rfl⟩
  rw [nest?, if_neg hrole] at h
  cases hopen : isOpening m.char with
  | true =>
    rw [if_pos hopen] at h
    cases h
    exact .inr (.inl ⟨fun s d => by simp [nest?, depth, hrole, hopen], rfl⟩)
  | false =>
    rw [hopen, if_neg Bool.false_ne_true] at h
    cases hclose : isClosing m.char with
    | true =>
      rw [if_pos hclose] at h
      split at h
      · next hhead =>
        cases h
        obtain ⟨rest, rfl⟩ := List.head?_eq_some_iff.1 hhead
        exact .inr (.inr ⟨fun s d => by simp [nest?, depth, hrole, hopen, hclose], not_not.1 hrole, rfl⟩)
      · cases h
    | false =>
      rw [hclose, if_neg Bool.false_ne_true] at h
      cases h
      exact .inl ⟨fun s d => by simp [nest?, depth, hrole, hopen, hclose], rfl⟩

/-- The depth counts the brackets that are to be closed, whatever it starts from. -/
theorem depthAfter_of_nestAfter? (h : nestAfter? awaited ms = some awaited') (d : Nat) :
    depthAfter (awaited.length + d) ms = awaited'.length + d := by
  induction ms generalizing awaited with
  | nil =>
    cases h
    rfl
  | cons m ms ih =>
    obtain ⟨middle, hm, hms⟩ := nestAfter?_cons.1 h
    have hdepth : m.depth (awaited.length + d) = middle.length + d := by
      rcases Mark.nest?_cases hm with ⟨hd, rfl⟩ | ⟨hd, rfl⟩ | ⟨hd, -, rfl⟩
      · exact (hd [] _).2
      · rw [(hd [] _).2, List.length_cons]
        omega
      · rw [List.length_cons, Nat.add_right_comm, (hd [] _).2]
    rw [depthAfter, List.foldl_cons, hdepth]
    exact ih hms

/-- Where fewer brackets are to be closed behind characters than before, the first of them is closed among these. -/
theorem exists_close {c : Char} {inner : List Char} (h : nestAfter? (inner ++ c :: awaited) ms = some awaited')
    (hlen : awaited'.length ≤ awaited.length) :
    ∃ before after, ms = before ++ ⟨c, .code⟩ :: after ∧ nestAfter? inner before = some [] := by
  induction ms generalizing inner with
  | nil =>
    cases h
    simp only [List.length_append, List.length_cons] at hlen
    omega
  | cons m ms ih =>
    obtain ⟨middle, hm, hms⟩ := nestAfter?_cons.1 h
    have hgoes : ∀ {s}, middle = s ++ c :: awaited → m.nest? inner = some s →
        ∃ before after, m :: ms = before ++ ⟨c, .code⟩ :: after ∧ nestAfter? inner before = some [] := by
      rintro s rfl hinner
      obtain ⟨before, after, rfl, hbefore⟩ := ih hms
      exact ⟨m :: before, after, rfl, nestAfter?_cons.2 ⟨s, hinner, hbefore⟩⟩
    rcases Mark.nest?_cases hm with ⟨hnest, rfl⟩ | ⟨hnest, rfl⟩ | ⟨hnest, hrole, hawaited⟩
    · exact hgoes rfl (hnest inner 0).1
    · exact hgoes (s := closer m.char :: inner) rfl (hnest inner 0).1
    · cases inner with
      | nil =>
        -- the bracket that closes the first one
        obtain ⟨d, role⟩ := m
        cases hrole
        cases hawaited
        exact ⟨[], ms, rfl, rfl⟩
      | cons d inner =>
        cases hawaited
        exact hgoes rfl (hnest inner 0).1

/-- Nested characters that start with an opening bracket start with a group. -/
theorem IsNested.exists_group {o : Char} (ho : isOpening o = true) (h : IsNested (⟨o, .code⟩ :: ms)) :
    ∃ group after, ⟨o, .code⟩ :: ms = group ++ after ∧ IsGroup o group := by
  obtain ⟨middle, hm, hms⟩ := nestAfter?_cons.1 h
  rw [Mark.nest?, if_neg (by simp), if_pos ho] at hm
  cases hm
  have hclose : nestAfter? ([] ++ closer o :: []) ms = some [] := hms
  obtain ⟨before, after, rfl, hbefore⟩ := exists_close hclose (Nat.le_refl 0)
  exact ⟨_, after, by simp, before, rfl, hbefore⟩

end

section
variable {ms : List Mark}

theorem depthAfter_append (d : Nat) (xs ys : List Mark) : depthAfter d (xs ++ ys) = depthAfter (depthAfter d xs) ys :=
  List.foldl_append

theorem IsNested.depthAfter (h : IsNested ms) (d : Nat) : depthAfter d ms = d := by
  simpa using depthAfter_of_nestAfter? h d

theorem isNested_inert_append {xs : List Mark} (h : ∀ m ∈ xs, m.isInert = true) :
    IsNested (xs ++ ms) ↔ IsNested ms := by
  induction xs with
  | nil => rfl
  | cons x xs ih =>
    have hx : x.nest? [] = some [] := by
      rcases Mark.isInert_iff.1 (h x List.mem_cons_self) with hrole | ⟨hopen, hclose, -⟩
      · rw [Mark.nest?, if_pos hrole]
      · simp [Mark.nest?, hopen, hclose]
    rw [← ih fun m hm => h m (List.mem_cons_of_mem x hm), IsNested, List.cons_append, nestAfter?, hx]
    rfl

theorem depthAfter_of_isInert (h : ∀ m ∈ ms, m.isInert = true) (d : Nat) : depthAfter d ms = d := by
  induction ms with
  | nil => rfl
  | cons m ms ih =>
    rw [Script.depthAfter, List.foldl_cons, m.depth_of_isInert (h m List.mem_cons_self)]
    exact ih fun x hx => h x (List.mem_cons_of_mem m hx)

theorem IsGroup.depthAfter {o : Char} (ho : isOpening o = true) (h : IsGroup o ms) (d : Nat) : depthAfter d ms = d := by
  obtain ⟨inner, rfl, hinner⟩ := h
  have hopen : Mark.depth d ⟨o, .code⟩ = d + 1 := by simp [Mark.depth, ho]
  have hclose : Mark.depth (d + 1) ⟨closer o, .code⟩ = d := by
    unfold closer
    split <;> rfl
  calc Script.depthAfter d (⟨o, .code⟩ :: (inner ++ [⟨closer o, .code⟩]))
      = Script.depthAfter (Mark.depth d ⟨o, .code⟩) (inner ++ [⟨closer o, .code⟩]) := rfl
    _ = Mark.depth (Script.depthAfter (d + 1) inner) ⟨closer o, .code⟩ := by rw [hopen, depthAfter_append]; rfl
    _ = d := by rw [hinner.depthAfter, hclose]

end

/-! ## Heads of values -/

namespace Value

def source : Value → Text
  | .function rest => rest
  | .object body => '{' :: (body ++ ['}'])
  | .other expression => expression

/-- What the class of a value says stands at its start, and what follows: a group of parameters, blanks and a group of
braces for a function, a group of braces for an object. -/
def Heads (v : Value) (after : List Mark) : Prop :=
  match v with
  | .function _ => ∃ params gap body, marks v.source = params ++ (gap ++ (body ++ after)) ∧ IsGroup '(' params ∧
      (∀ m ∈ gap, m.role = .code ∧ Text.isBlank m.char = true) ∧ IsGroup '{' body
  | .object _ => ∃ group, marks v.source = group ++ after ∧ IsGroup '{' group
  | .other _ => after = []

/-- A value that is of its class: nothing follows what its class says. -/
def IsProper (v : Value) : Prop := v.Heads []

/-- What a function or an object starts with ends with a brace that brings the depth to zero. -/
theorem Heads.exists_front {v : Value} {after : List Mark} (h : v.Heads after) :
    after = [] ∨ ∃ front, marks v.source = front ++ ⟨'}', .code⟩ :: after ∧ depthAfter 0 front = 1 := by
  have hfront : ∀ {inner : List Mark}, IsNested inner → depthAfter 0 (⟨'{', .code⟩ :: inner) = 1 :=
    fun hinner => hinner.depthAfter 1
  cases v with
  | function rest =>
    obtain ⟨params, gap, body, hmarks, hparams, hgap, inner, rfl, hinner⟩ := h
    refine .inr ⟨params ++ (gap ++ ⟨'{', .code⟩ :: inner), by rw [hmarks]; simp [closer], ?_⟩
    have hinert : ∀ m ∈ gap, m.isInert = true := by
      rintro ⟨c, role⟩ hm
      obtain ⟨rfl, hblank⟩ := hgap _ hm
      exact Mark.isInert_of_isQuiet (isQuiet_of_isBlank hblank)
    rw [depthAfter_append, depthAfter_append, hparams.depthAfter (by decide), depthAfter_of_isInert hinert,
      hfront hinner]
  | object body =>
    obtain ⟨group, hmarks, inner, rfl, hinner⟩ := h
    exact .inr ⟨⟨'{', .code⟩ :: inner, by rw [hmarks]; simp [closer], hfront hinner⟩
  | other expression => exact .inl h

/-- The source of a value stands at the end of the expression that it is the class of. -/
theorem exists_source (e : Text) : ∃ word, e = word ++ (classify e).source ∧ ∀ c ∈ word, isQuiet c = true := by
  cases hv : classify e with
  | function rest =>
    obtain ⟨word, hword, hquiet⟩ := eq_of_functionRest? (functionRest?_of_classify hv)
    exact ⟨word, hword, hquiet⟩
  | object body => exact ⟨[], eq_of_classify_object hv, List.forall_mem_nil _⟩
  | other expression =>
    refine ⟨[], ?_, List.forall_mem_nil _⟩
    rw [classify] at hv
    split at hv
    · cases hv
    · split at hv
      · cases hv
      · cases hv
        rfl

end Value

/-! ## The statement of an assignment -/

/-- What stands in front of an assigned path is the namespace and a dot. -/
theorem Assignment.eq_of_parse? {ns : Namespace} {t : Text} {a : Assignment} (h : parse? ns t = some a) :
    t = (ns ++ ['.']) ++ a.unqualified := by
  rw [parse?] at h
  obtain ⟨u, hu, h⟩ := Option.bind_eq_some_iff.1 h
  dsimp only at h
  split at h
  · obtain ⟨e, -, h⟩ := Option.bind_eq_some_iff.1 h
    cases h
    exact Text.stripStart?_eq_some_iff.1 hu
  · cases h

/-- A trimmed text whose first character is quiet starts a statement. -/
theorem exists_starts_of_isQuiet {c : Char} {t : Text} (hc : isQuiet c = true) (htrim : Text.trim (c :: t) = c :: t) :
    ∃ m ms, marks (c :: t) = m :: ms ∧ m.starts = true := by
  obtain ⟨hcode, -, hclose, hsemi⟩ := isQuiet_iff.1 hc
  have hblank : Text.isAsciiBlank c = false := by
    cases hascii : Text.isAsciiBlank c with
    | false => rfl
    | true =>
      have hno := Text.isBlank_of_trim_eq_self htrim (.inl rfl)
      rw [Text.isBlank_of_isAsciiBlank hascii] at hno
      cases hno
  have hmarks : marks ([c] ++ t) = [c].map (⟨·, .code⟩) ++ marks t :=
    marks_codes_append (fun d hd => List.mem_singleton.1 hd ▸ hcode) t
  exact ⟨_, _, hmarks, Mark.starts_code.2 ⟨hclose, hsemi, hblank⟩⟩

/-- From any of its characters on, a statement takes in what is left of it. -/
theorem Takes.drop {d : Nat} {xs ms rest : List Mark} (h : Takes d (xs ++ ms) rest) (hms : ms ≠ []) :
    Takes (depthAfter d xs) ms rest := by
  induction xs generalizing d with
  | nil => exact h
  | cons x xs ih =>
    rw [List.cons_append] at h
    generalize hall : xs ++ ms = all at h
    cases h with
    | brace => exact absurd (List.append_eq_nil_iff.1 hall).2 hms
    | step hm h =>
      subst hall
      exact ih h

/-- Behind a brace that brings the depth to zero, nothing follows that could not go on. -/
theorem Takes.eq_nil_of_endsBlock {d : Nat} {after : List Mark} (h : Takes d (⟨'}', .code⟩ :: after) []) (hd : d ≤ 1)
    (hend : endsBlock (after.map Mark.char) = true) : after = [] := by
  cases h with
  | brace => rfl
  | step hm =>
    rw [List.append_nil] at hm
    rw [Mark.stops_iff.2 (.inr ⟨rfl, hd, hend⟩)] at hm
    cases hm

section
variable {ns : Namespace} {script : Text} {a : Assignment} (hns : ∀ c ∈ ns, isQuiet c = true)
  (ha : a ∈ assignments script ns)
include hns ha

/-- The statement of an assignment is cut off whole, and ends with its value. -/
theorem exists_lead :
    ∃ lead : List Mark, marks a.statement = lead ++ marks a.value.source ∧ (∀ m ∈ lead, m.isInert = true) ∧
      IsCut (marks a.statement) [] := by
  obtain ⟨t, ht, hparse⟩ := List.mem_filterMap.1 ha
  obtain ⟨rfl, -, -, e, he, ⟨front, hfront, hfrontQuiet⟩, middle, hmiddle, hmiddleQuiet⟩ :=
    Assignment.exists_of_parse? hns hparse
  obtain ⟨word, hword, hwordQuiet⟩ := Value.exists_source e
  rw [← he] at hword
  have hquiet : ∀ c ∈ front ++ (middle ++ word), isQuiet c = true :=
    List.forall_mem_append.2 ⟨hfrontQuiet, List.forall_mem_append.2 ⟨hmiddleQuiet, hwordQuiet⟩⟩
  have hstatement : a.statement = front ++ (middle ++ word) ++ a.value.source := by
    rw [hfront, hmiddle, List.append_assoc, List.append_assoc, ← hword]
  have hmarks : marks a.statement = (front ++ (middle ++ word)).map (⟨·, .code⟩) ++ marks a.value.source := by
    rw [hstatement, marks_codes_append fun c hc => (isQuiet_iff.1 (hquiet c hc)).1]
  obtain ⟨c, r, hr⟩ : ∃ c r, ns ++ ['.'] = c :: r := List.exists_cons_of_ne_nil (by simp)
  have hfirst : a.statement = c :: (r ++ a.unqualified) := by
    rw [Assignment.eq_of_parse? hparse, hr]
    rfl
  have hc : isQuiet c = true := by
    have hall : ∀ c ∈ ns ++ ['.'], isQuiet c = true := List.forall_mem_append.2 ⟨hns, by decide⟩
    exact hall c (hr ▸ List.mem_cons_self)
  refine ⟨_, hmarks, isInert_codes hquiet, isCut_of_mem_statements ht ?_⟩
  have htrim := (trim_of_mem_statements ht).1
  rw [hfirst] at htrim ⊢
  exact exists_starts_of_isQuiet hc htrim

/-- A function or an object is one exactly if it starts as one and what follows cannot go on with it; an object starts
as one where brackets are nested. -/
theorem isProper_iff :
    (a.value.IsProper ↔ ∃ after, a.value.Heads after ∧ endsBlock (after.map Mark.char) = true) ∧
      (IsNested (marks a.statement) → ∀ body, a.value = .object body → ∃ after, a.value.Heads after) := by
  obtain ⟨lead, hmarks, hinert, hcut⟩ := exists_lead hns ha
  refine ⟨⟨fun h => ⟨[], h, rfl⟩, ?_⟩, fun hnested body hbody => ?_⟩
  · rintro ⟨after, hheads, hend⟩
    obtain rfl | ⟨front, hsource, hdepth⟩ := hheads.exists_front
    · exact hheads
    · have htakes := hcut.takes
      rw [hmarks, hsource, ← List.append_assoc] at htakes
      have hbrace := htakes.drop (List.cons_ne_nil _ _)
      rw [depthAfter_append, depthAfter_of_isInert hinert, hdepth] at hbrace
      obtain rfl := hbrace.eq_nil_of_endsBlock (Nat.le_refl 1) hend
      exact hheads
  · have hsource : marks a.value.source = ⟨'{', .code⟩ :: marks (body ++ ['}']) := by
      rw [hbody]
      exact marks_codes_append (a := ['{']) (by decide) _
    rw [hmarks, hsource, isNested_inert_append hinert] at hnested
    obtain ⟨group, after, hgroup, hbraces⟩ := hnested.exists_group (by decide)
    rw [hbody] at hsource ⊢
    exact ⟨after, group, hsource.trans hgroup, hbraces⟩

end

/-- A function with an object in its body, and with a comment behind it that is no part of the statement. -/
theorem isProper_iff_small :
    let ns := "ns".toList
    let script := "ns.A = function(a) \x7b return \x7b b: '(' \x7d; \x7d // ]\nns.B = \x7b\x7d".toList
    let a := (assignments script ns).head?.getD ⟨[], [], [], .other []⟩
    ((∀ c ∈ ns, isQuiet c = true) ∧ a ∈ assignments script ns ∧ IsNested (marks a.statement)) ∧ a.value.IsProper ∧
      (a.value.IsProper ↔ ∃ after, a.value.Heads after ∧ endsBlock (after.map Mark.char) = true) ∧
      ∀ body, a.value = .object body → ∃ after, a.value.Heads after := by
  intro ns script a
  have hns : ∀ c ∈ ns, isQuiet c = true := by decide
  have ha : a ∈ assignments script ns := by decide +kernel
  have hnested : IsNested (marks a.statement) := by decide +kernel
  have hvalue : a.value = .function "(a) \x7b return \x7b b: '(' \x7d; \x7d".toList := by decide +kernel
  have hproper : a.value.IsProper := by
    rw [hvalue]
    let ms := marks "(a) \x7b return \x7b b: '(' \x7d; \x7d".toList
    exact ⟨ms.take 3, (ms.drop 3).take 1, ms.drop 4, by decide +kernel, by decide +kernel, by decide +kernel,
      by decide +kernel⟩
  exact ⟨⟨hns, ha, hnested⟩, hproper, (isProper_iff hns ha).1, (isProper_iff hns ha).2 hnested⟩

/-- A function that is its class starts with its parameters and ends with its body. -/
theorem Value.IsProper.function_ends {rest : Text} (h : (Value.function rest).IsProper) :
    (marks rest).head? = some ⟨'(', .code⟩ ∧ (marks rest).getLast? = some ⟨'}', .code⟩ := by
  obtain ⟨params, gap, body, hmarks, ⟨inner, rfl, -⟩, -, body', rfl, -⟩ := h
  have hall : marks rest =
      ⟨'(', .code⟩ :: (inner ++ (⟨')', .code⟩ :: (gap ++ ⟨'{', .code⟩ :: body'))) ++ [⟨'}', .code⟩] := by
    refine hmarks.trans ?_
    simp [closer]
  exact ⟨by rw [hall]; rfl, by rw [hall, List.getLast?_concat]⟩

theorem isProper_object {body : Text} :
    (Value.object body).IsProper ↔ IsGroup '{' (marks ('{' :: (body ++ ['}']))) := by
  simp [Value.IsProper, Value.Heads, Value.source]

/-- An object with an assignment behind it, a function with a name, and one that is called. -/
theorem classify_improper :
    let script := ("ns.A = \x7ba: 1\x7d, ns.B = \x7bb: 2\x7d;\nns.C = function F() \x7b\x7d;\n" ++
      "ns.D = function() \x7b\x7d(\x7b\x7d)").toList
    ((assignments script "ns".toList).map (·.value) =
        [.object "a: 1\x7d, ns.B = \x7bb: 2".toList, .function "F() \x7b\x7d".toList,
          .function "() \x7b\x7d(\x7b\x7d)".toList] ∧
      ∀ a ∈ assignments script "ns".toList, IsNested (marks a.statement)) ∧
      ∀ a ∈ assignments script "ns".toList, ¬a.value.IsProper := by
  intro script
  have hvalues : (assignments script "ns".toList).map (·.value) =
      [.object "a: 1\x7d, ns.B = \x7bb: 2".toList, .function "F() \x7b\x7d".toList,
        .function "() \x7b\x7d(\x7b\x7d)".toList] := by decide +kernel
  refine ⟨⟨hvalues, by decide +kernel⟩, fun a ha => ?_⟩
  have hvalue : a.value ∈ (assignments script "ns".toList).map (·.value) := List.mem_map_of_mem ha
  rw [hvalues] at hvalue
  simp only [List.mem_cons, List.not_mem_nil, or_false] at hvalue
  obtain hobject | hnamed | hcalled := hvalue
  · rw [hobject, isProper_object]
    decide +kernel
  · rw [hnamed]
    exact fun h => absurd h.function_ends.1 (by decide +kernel)
  · rw [hcalled]
    exact fun h => absurd h.function_ends.2 (by decide +kernel)

end ThriftModules.Script
