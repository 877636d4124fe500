-- The law of the whole text: asked to take all of a text, a parser reports its first
-- candidate that does so, and reads nothing behind it. Every other candidate is turned
-- into a failure that expected the end of the text, one for one and in its place.
import Backtrack.Proofs.Sequence
import Backtrack.Proofs.Stream.Reports

namespace Backtrack

/-! ## Candidates that take the whole text -/

namespace Outcome

/-- The outcome is a success that takes the whole text. -/
def takesAll (text : Text) : Outcome → Bool
  | success index _ => decide (index = text.length)
  | failure _ _ => false

/-- What becomes of the outcome if the end of the text is asked for behind it. -/
def atEnd (text : Text) : Outcome → Outcome
  | success index value =>
    if index = text.length then success index value else failure index "end of string"
  | failure index expect => failure index expect

/-- What is reported of an outcome that does not take the whole text. -/
def expected : Outcome → Expected
  | success index _ => ⟨index, "end of string"⟩
  | failure index expect => ⟨index, expect⟩

theorem takesAll_iff {text : Text} {o : Outcome} :
    o.takesAll text = true ↔ ∃ v, o = success text.length v := by
  cases o with
  | failure index expect => simp [takesAll]
  | success index value =>
    simp only [takesAll, decide_eq_true_eq, success.injEq]
    constructor
    · intro h
      exact ⟨value, h, rfl⟩
    · rintro ⟨_, h, _⟩
      exact h

theorem not_takesAll {text : Text} {outcomes : List Outcome}
    (h : ∀ w, .success text.length w ∉ outcomes) : ∀ o ∈ outcomes, ¬ o.takesAll text := by
  intro o ho htakes
  obtain ⟨v, rfl⟩ := takesAll_iff.mp htakes
  exact h v ho

/-- If a candidate takes the whole text, there is a first one that does. -/
theorem exists_first_takesAll {text : Text} {outcomes : List Outcome} {v : Value}
    (hv : .success text.length v ∈ outcomes) :
    ∃ before w after, outcomes = before ++ .success text.length w :: after ∧
      ∀ o ∈ before, ¬ o.takesAll text := by
  cases hfirst : outcomes.find? (takesAll text) with
  | none =>
    have hall := List.find?_eq_none.mp hfirst _ hv
    exact (hall (takesAll_iff.mpr ⟨v, rfl⟩)).elim
  | some o =>
    obtain ⟨ho, before, after, houtcomes, hbefore⟩ := List.find?_eq_some_iff_append.mp hfirst
    obtain ⟨w, rfl⟩ := takesAll_iff.mp ho
    exact ⟨before, w, after, houtcomes, fun o ho => by simpa using hbefore o ho⟩

theorem isSuccess_atEnd (text : Text) (o : Outcome) : (o.atEnd text).isSuccess = o.takesAll text := by
  cases o with
  | failure index expect => rfl
  | success index value =>
    by_cases h : index = text.length <;> simp [atEnd, takesAll, isSuccess, h]

end Outcome

/-- Candidates that do not take the whole text are reported as failures, before all that
follows. -/
theorem Report.ofOutcomes_map_atEnd {text : Text} {before : List Outcome}
    (hbefore : ∀ o ∈ before, ¬ o.takesAll text) (rest : List Outcome) :
    ofOutcomes (before.map (·.atEnd text) ++ rest) = match ofOutcomes rest with
      | success index value => success index value
      | failure errors => failure (before.map Outcome.expected ++ errors) := by
  induction before with
  | nil =>
    simp only [List.map_nil, List.nil_append]
    cases ofOutcomes rest <;> rfl
  | cons o before ih =>
    have hrest := ih fun o' ho' => hbefore o' (List.mem_cons_of_mem o ho')
    have ho := hbefore o List.mem_cons_self
    obtain ⟨index, expect, hatEnd, hexpected⟩ : ∃ index expect,
        o.atEnd text = .failure index expect ∧ o.expected = ⟨index, expect⟩ := by
      cases o with
      | failure index expect => exact ⟨index, expect, rfl, rfl⟩
      | success index value =>
        simp only [Outcome.takesAll, decide_eq_true_eq] at ho
        exact ⟨index, "end of string", by rw [Outcome.atEnd, if_neg ho], rfl⟩
    simp only [List.map_cons, List.cons_append, hatEnd, hexpected, ofOutcomes, hrest]
    cases ofOutcomes rest <;> rfl

/-! ## Reading -/

namespace Script

variable {wanted : Outcome → Bool}

/-- As long as nothing that is wanted is met, wanting something changes nothing. -/
theorem read_of_take {s : Script} {n : Nat} {r : Shown} (h : s.take n = some r)
    (hr : ∀ o ∈ r.outcomes, ¬ wanted o) : s.read wanted n = some r := by
  unfold take at h
  induction s generalizing n r with
  | done | raised | unread => cases n <;> exact h
  | event e rest ih =>
    cases n with
    | zero => exact h
    | succ n =>
      obtain ⟨r', hr', rfl⟩ := Option.map_eq_some_iff.mp h
      rw [read, ih hr' hr]
      rfl
  | outcome o rest ih =>
    cases n with
    | zero => exact h
    | succ n =>
      obtain ⟨r', hr', rfl⟩ := Option.map_eq_some_iff.mp h
      have hrest := ih hr' fun o' ho' => hr o' (List.mem_cons_of_mem o ho')
      rw [read, if_neg (hr o List.mem_cons_self), hrest]
      rfl

/-- Up to the first outcome that is wanted, a script shows the same whether that is
wanted or as many outcomes are taken. -/
theorem read_of_first {s : Script} {n : Nat} {r : Shown} (h : s.take n = some r)
    {before after : List Outcome} {o : Outcome} (hr : r.outcomes = before ++ o :: after)
    (hbefore : ∀ o' ∈ before, ¬ wanted o') (ho : wanted o) :
    ∃ events, s.take (before.length + 1) = some ⟨events, before ++ [o], .satisfied⟩ ∧
      s.read wanted (before.length + 1) = some ⟨events, before ++ [o], .satisfied⟩ := by
  unfold take at h ⊢
  induction s generalizing n before r with
  | done | raised | unread => cases n <;> cases h <;> simp at hr
  | event e rest ih =>
    cases n with
    | zero =>
      cases h
      simp at hr
    | succ n =>
      obtain ⟨r', hr', rfl⟩ := Option.map_eq_some_iff.mp h
      obtain ⟨events, htake, hread⟩ := ih hr' hr hbefore
      refine ⟨e :: events, ?_, ?_⟩
      · rw [read, htake]
        rfl
      · rw [read, hread]
        rfl
  | outcome o' rest ih =>
    cases n with
    | zero =>
      cases h
      simp at hr
    | succ n =>
      obtain ⟨r', hr', rfl⟩ := Option.map_eq_some_iff.mp h
      cases before with
      | nil =>
        simp only [List.nil_append, List.cons.injEq] at hr
        obtain ⟨rfl, _⟩ := hr
        refine ⟨[], ?_, ?_⟩
        · rw [List.length_nil, read, read_none]
          rfl
        · rw [List.length_nil, read, if_pos ho]
          rfl
      | cons o'' before =>
        simp only [List.cons_append, List.cons.injEq] at hr
        obtain ⟨rfl, hr⟩ := hr
        have hrest : ∀ o ∈ before, ¬ wanted o := fun o ho => hbefore o (List.mem_cons_of_mem o' ho)
        obtain ⟨events, htake, hread⟩ := ih hr' hr hrest
        refine ⟨events, ?_, ?_⟩
        · rw [List.length_cons, read, htake]
          rfl
        · rw [List.length_cons, read, if_neg (hbefore o' List.mem_cons_self), hread]
          rfl

end Script

namespace Parser

variable {rules : Rules} {text : Text} {p : Parser} {k : Nat} {shown : Shown}

/-- Asked to take the whole text, a parser has its own script with every outcome as it is
at the end of the text. -/
theorem script_toEnd (rules : Rules) (text : Text) (n : Nat) (p : Parser) (i : Int) :
    p.toEnd.script rules text n i =
      (p.script rules text n i).expand fun o => .single (o.atEnd text) := by
  rw [toEnd, script_keepFirst]
  congr 1
  funext o
  cases o with
  | failure index expect => rfl
  | success j v =>
    simp only [keepingValue, endOfText, script_leaf, Leaf.attempt, Outcome.atEnd]
    by_cases hj : j = text.length
    · rw [if_pos hj, if_pos hj]
      rfl
    · rw [if_neg hj, if_neg hj]
      rfl

/-! ## The law of the whole text -/

/-- With enough fuel, asking the parser to take the whole text ends in this way. -/
def ParsesToEnd (rules : Rules) (text : Text) (p : Parser) (a : Action Report) : Prop :=
  ∃ enough, ∀ fuel ≥ enough, p.parseToEnd rules fuel text = some a

theorem ParsesToEnd.unique {a b : Action Report} (ha : p.ParsesToEnd rules text a)
    (hb : p.ParsesToEnd rules text b) : a = b := by
  obtain ⟨n, hn⟩ := ha
  obtain ⟨m, hm⟩ := hb
  have ha := hn (max n m) (Nat.le_max_left n m)
  have hb := hm (max n m) (Nat.le_max_right n m)
  exact Option.some.inj (ha.symm.trans hb)

/-- What is read of a parser up to the first candidate that takes the whole text decides
how asking for the whole text ends. -/
theorem parsesToEnd_of_read_script {n : Nat}
    (h : (p.script rules text n 0).read (Outcome.takesAll text) (k + 1) = some shown)
    (hsettled : shown.Settled (Outcome.takesAll text)) :
    p.ParsesToEnd rules text
      (Shown.reported { shown with outcomes := shown.outcomes.map (·.atEnd text) } text.length) := by
  have hread := Script.read_expand_single (Outcome.isSuccess_atEnd text) (p.script rules text n 0)
    (k + 1)
  rw [h, ← script_toEnd] at hread
  refine parse_of_read_script hread fun hstop => ?_
  have hsame : Outcome.isSuccess ∘ Outcome.atEnd text = Outcome.takesAll text :=
    funext (Outcome.isSuccess_atEnd text)
  rw [List.any_map, hsame]
  exact hsettled hstop

/-- Without a candidate that takes the whole text, the parser is read to its end, and
each candidate is reported in its place. -/
theorem parsesToEnd_of_none (h : p.Shows rules text 0 k shown)
    (hnone : ∀ o ∈ shown.outcomes, ¬ o.takesAll text) (hstop : shown.stop ≠ .satisfied) :
    p.ParsesToEnd rules text
      (Shown.reported { shown with outcomes := shown.outcomes.map (·.atEnd text) } text.length) := by
  obtain ⟨n, m, hn⟩ := h.exists_take_script (Or.inl hstop)
  exact parsesToEnd_of_read_script (Script.read_of_take hn hnone) fun hs => (hstop hs).elim

/-- The first candidate that takes the whole text is reported, and the parser is read as
far as this candidate and no further. -/
theorem parsesToEnd_of_first (h : p.Shows rules text 0 k shown) {before after : List Outcome}
    {v : Value} (hshown : shown.outcomes = before ++ .success text.length v :: after)
    (hbefore : ∀ o ∈ before, ¬ o.takesAll text) :
    ∃ pulled, p.Shows rules text 0 (before.length + 1)
        ⟨pulled, before ++ [.success text.length v], .satisfied⟩ ∧
      p.ParsesToEnd rules text
        ⟨pulled ++ [.logged (.parsed text.length text.length)], .ok (.success text.length v)⟩ := by
  have hne : shown.outcomes ≠ [] := by
    rw [hshown]
    simp
  obtain ⟨n, m, hn⟩ := h.exists_take_script (Or.inr hne)
  have hv : (Outcome.success text.length v).takesAll text := Outcome.takesAll_iff.mpr ⟨v, rfl⟩
  obtain ⟨pulled, htake, hread⟩ := Script.read_of_first hn hshown hbefore hv
  refine ⟨pulled, shows_of_take_script htake, ?_⟩
  have hparse := parsesToEnd_of_read_script hread fun _ => by simp [hv]
  have hreport := Report.ofOutcomes_map_atEnd hbefore [.success text.length v]
  have hatEnd : (Outcome.success text.length v).atEnd text = .success text.length v := if_pos rfl
  simpa [Shown.reported, hatEnd, hreport, Report.ofOutcomes, Report.record] using hparse

/-- A run that ends without a candidate that takes the whole text is reported as a failure,
with every outcome of it. -/
theorem parsesToEnd_of_exhausted (h : p.Shows rules text 0 k shown) (hstop : shown.stop = .exhausted)
    (hnone : ∀ o ∈ shown.outcomes, ¬ o.takesAll text) :
    p.ParsesToEnd rules text ⟨shown.events ++ [.logged (.failed shown.outcomes.length)],
      .ok (.failure (shown.outcomes.map Outcome.expected))⟩ := by
  have hparse := parsesToEnd_of_none h hnone (by rw [hstop]; exact Stream.Stop.noConfusion)
  have hreport := Report.ofOutcomes_map_atEnd hnone []
  simp only [List.append_nil, Report.ofOutcomes] at hreport
  simpa [Shown.reported, hstop, hreport, Report.record] using hparse

/-- However far the stream of the parser is known: if a candidate in it takes the whole
text, asking for the whole text gives the first that does so, after exactly the pulls up
to this candidate; if it ends without one, all candidates are reported in their order,
failures as they are and successes as expecting the end of the text where they end; and
if it meets a fault without one, that is met. So of a stream that ends without a fault,
some candidate takes the whole text exactly if asking for it succeeds. -/
theorem whole_text_is_taken_by_the_first_that_can (h : p.Shows rules text 0 k shown) :
    (∀ before v after, shown.outcomes = before ++ .success text.length v :: after →
      (∀ w, .success text.length w ∉ before) →
      ∃ pulled, p.Shows rules text 0 (before.length + 1)
          ⟨pulled, before ++ [.success text.length v], .satisfied⟩ ∧
        p.ParsesToEnd rules text
          ⟨pulled ++ [.logged (.parsed text.length text.length)], .ok (.success text.length v)⟩) ∧
    ((∀ w, .success text.length w ∉ shown.outcomes) →
      (shown.stop = .exhausted →
        p.ParsesToEnd rules text ⟨shown.events ++ [.logged (.failed shown.outcomes.length)],
          .ok (.failure (shown.outcomes.map Outcome.expected))⟩) ∧
      ∀ fault, shown.stop = .faulted fault →
        p.ParsesToEnd rules text ⟨shown.events, .error fault⟩) ∧
    (shown.stop = .exhausted →
      ((∃ events index v, p.ParsesToEnd rules text ⟨events, .ok (.success index v)⟩) ↔
        ∃ v, .success text.length v ∈ shown.outcomes)) := by
  have hnone : (∀ w, .success text.length w ∉ shown.outcomes) → shown.stop = .exhausted →
      p.ParsesToEnd rules text ⟨shown.events ++ [.logged (.failed shown.outcomes.length)],
        .ok (.failure (shown.outcomes.map Outcome.expected))⟩ := fun hall hstop =>
    parsesToEnd_of_exhausted h hstop (Outcome.not_takesAll hall)
  refine ⟨fun before v after hshown hbefore => ?_, fun hall => ⟨hnone hall, fun fault hstop => ?_⟩,
    fun hstop => ⟨?_, ?_⟩⟩
  · exact parsesToEnd_of_first h hshown (Outcome.not_takesAll hbefore)
  · have hparse := parsesToEnd_of_none h (Outcome.not_takesAll hall)
      (by rw [hstop]; exact Stream.Stop.noConfusion)
    simpa [Shown.reported, hstop] using hparse
  · rintro ⟨events, index, v, hsuccess⟩
    -- A stream that ends without such a candidate is reported as a failure, and there is
    -- only one report.
    by_contra hall
    have hfailure := hnone (fun w hw => hall ⟨w, hw⟩) hstop
    cases hsuccess.unique hfailure
  · rintro ⟨v, hv⟩
    obtain ⟨before, w, after, hshown, hbefore⟩ := Outcome.exists_first_takesAll hv
    obtain ⟨pulled, _, hparse⟩ := parsesToEnd_of_first h hshown hbefore
    exact ⟨_, _, w, hparse⟩

/-- A step function with a short candidate, a failure, a candidate for a text of two
characters, and a fault behind these. -/
def hasty : Parser := custom fun _ i => ⟨[.called "p" i], .ok <|
  .event (.pulled "p" 1) <| .outcome (.success 1 (.str "a")) <|
  .event (.pulled "p" 2) <| .outcome (.failure 0 "more") <|
  .event (.pulled "p" 3) <| .outcome (.success 2 (.str "ab")) <|
  .event (.pulled "p" 4) <| .raised (.raised "too far")⟩

theorem hasty_stops_before_its_fault :
    let events : List Event := [.called "p" 0, .pulled "p" 1, .pulled "p" 2, .pulled "p" 3]
    let outcomes : List Outcome :=
      [.success 1 (.str "a"), .failure 0 "more", .success 2 (.str "ab")]
    hasty.Shows .empty ['a', 'b'] 0 4
        ⟨events ++ [.pulled "p" 4], outcomes, .faulted (.raised "too far")⟩ ∧
      ∃ pulled, hasty.Shows .empty ['a', 'b'] 0 3 ⟨pulled, outcomes, .satisfied⟩ ∧
        hasty.ParsesToEnd .empty ['a', 'b']
          ⟨pulled ++ [.logged (.parsed 2 2)], .ok (.success 2 (.str "ab"))⟩ := by
  intro events outcomes
  have hscript : (hasty.script .empty ['a', 'b'] 0 0).take 4 =
      some ⟨events ++ [.pulled "p" 4], outcomes, .faulted (.raised "too far")⟩ := rfl
  have hshows := shows_of_take_script hscript
  refine ⟨hshows, ?_⟩
  refine (whole_text_is_taken_by_the_first_that_can hshows).1
    [.success 1 (.str "a"), .failure 0 "more"] (.str "ab") [] rfl fun w hw => ?_
  simp at hw

end Parser

end Backtrack
