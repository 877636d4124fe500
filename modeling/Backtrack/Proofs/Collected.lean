-- The law of collected text: a parser that only puts values together loses nothing of
-- the text that it takes. Offsets and values are handed on apart from each other, and
-- agree at every success: the strings in its value, read from left to right, are the text
-- between its start and its end.
import Backtrack.Proofs.Stream.Runs
import Backtrack.Proofs.Offsets

namespace Backtrack

/-! ## The strings in a value -/

namespace Value

mutual

/-- The characters of all strings in a value, from left to right. -/
def letters : Value → Text
  | str s => s.toList
  | list items => lettersOfAll items
  | tuple items => lettersOfAll items
  | none | bool _ | int _ => []

/-- The characters of all strings in values, from left to right. -/
def lettersOfAll : List Value → Text
  | [] => []
  | v :: rest => v.letters ++ lettersOfAll rest

end

theorem letters_pair (a b : Value) : (pair a b).letters = a.letters ++ b.letters := by
  simp [pair, letters, lettersOfAll]

theorem lettersOfAll_append (items later : List Value) :
    lettersOfAll (items ++ later) = lettersOfAll items ++ lettersOfAll later := by
  induction items with
  | nil => rfl
  | cons v items ih => rw [List.cons_append, lettersOfAll, lettersOfAll, ih, List.append_assoc]

/-- The elements of a sequence hold the strings of the sequence, also those of a string. -/
theorem lettersOfAll_of_elements {v : Value} {items : List Value} (h : v.elements? = some items) :
    lettersOfAll items = v.letters := by
  cases v with
  | str s =>
    cases h
    rw [letters]
    induction s.toList with
    | nil => rfl
    | cons c cs ih => rw [List.map_cons, lettersOfAll, ih, letters, String.toList_singleton]; rfl
  | list items' | tuple items' => cases h; rw [letters]
  | none | bool _ | int _ => cases h

end Value

/-! ## Slices of a text -/

namespace Text

variable {text : Text} {i j k : Int}

theorem place_of_mem (h0 : 0 ≤ i) (h1 : i ≤ text.length) : text.place i = i.toNat := by
  obtain ⟨n, rfl⟩ := Int.eq_ofNat_of_zero_le h0
  exact place_ofNat (by omega)

/-- Two slices that meet are one. -/
theorem between_append_between (h0 : 0 ≤ i) (hij : i ≤ j) (hjk : j ≤ k) (h1 : k ≤ text.length) :
    text.between i j ++ text.between j k = text.between i k := by
  have hk : k.toNat - i.toNat = (j.toNat - i.toNat) + (k.toNat - j.toNat) := by omega
  have hj : i.toNat + (j.toNat - i.toNat) = j.toNat := by omega
  unfold between
  rw [place_of_mem h0 (by omega), place_of_mem (by omega) (by omega), place_of_mem (by omega) h1,
    List.drop_take, List.drop_take, List.drop_take, hk, List.take_add, List.drop_drop, hj]

/-- A start of what is left of the text is a slice of it. -/
theorem eq_between_of_isPrefix {found : Text} (h0 : 0 ≤ i) (h1 : i ≤ text.length)
    (h : found <+: text.remainder i) :
    i + found.length ≤ text.length ∧ found = text.between i (i + found.length) := by
  have hlength := h.length_le
  have hrest := text.add_length_remainder_le i
  have hle : i + found.length ≤ text.length := by omega
  have hsame : (i + found.length).toNat - i.toNat = found.length := by omega
  refine ⟨hle, ?_⟩
  unfold remainder at h
  unfold between
  rw [place_of_mem h0 h1] at h
  rw [place_of_mem (by omega) hle, place_of_mem h0 h1, List.drop_take, hsame]
  exact List.prefix_iff_eq_take.mp h

end Text

/-! ## Outcomes that hold what they take -/

/-- A success ends in the text, and the strings in its value are the text that it takes. -/
def Outcome.Covers (text : Text) (start : Int) : Outcome → Prop
  | success stop value =>
    start ≤ stop ∧ stop ≤ text.length ∧ value.letters = text.between start stop
  | failure _ _ => True

variable {text : Text} {i j k : Int} {o : Outcome}

/-- Nothing is taken, and no string produced. -/
theorem Outcome.covers_of_nothing {v : Value} (h1 : i ≤ text.length) (hv : v.letters = []) :
    (Outcome.success i v).Covers text i :=
  ⟨Int.le_refl i, h1, by rw [hv, Text.between_self]⟩

theorem Outcome.covers_of_isPrefix {s : String} (h0 : 0 ≤ i) (h1 : i ≤ text.length)
    (h : s.toList <+: text.remainder i) : (Outcome.success (i + s.length) (.str s)).Covers text i := by
  obtain ⟨hle, hsame⟩ := Text.eq_between_of_isPrefix h0 h1 h
  rw [String.length_toList] at hle hsame
  refine ⟨by omega, hle, ?_⟩
  rw [Value.letters]
  exact hsame

/-- The value of what is taken first and then has that of what is taken later behind it. -/
theorem Outcome.Covers.joined {a b w : Value} (h0 : 0 ≤ i) (ha : (Outcome.success j a).Covers text i)
    (hb : (Outcome.success k b).Covers text j) (hw : w.letters = a.letters ++ b.letters) :
    (Outcome.success k w).Covers text i := by
  obtain ⟨hij, _, ha⟩ := ha
  obtain ⟨hjk, hk, hb⟩ := hb
  refine ⟨by omega, hk, ?_⟩
  rw [hw, ha, hb, Text.between_append_between h0 hij hjk hk]

/-! ## Leaves -/

namespace Leaf

theorem covers_string {literal : String} (h0 : 0 ≤ i) (h1 : i ≤ text.length)
    (h : (string literal).attempt text i = .ok o) : o.Covers text i := by
  rw [attempt] at h
  split at h
  · rename_i hholds
    cases h
    simp only [Text.holds, Bool.and_eq_true, List.isPrefixOf_iff_prefix] at hholds
    exact Outcome.covers_of_isPrefix h0 h1 hholds.2
  · cases h
    trivial

/-- The whole of a match stands at the start of what was searched. -/
theorem prefix_of_find_whole {p : Pattern} {searched found : Text}
    (h : p.find (.number 0) searched = .taken found) : found <+: searched := by
  rw [Pattern.find_whole] at h
  split at h
  · cases h
  · cases h
    exact List.take_prefix _ _

theorem covers_ofPattern {pattern : Pattern} (h0 : 0 ≤ i) (h1 : i ≤ text.length)
    (h : (ofPattern pattern).attempt text i = .ok o) : o.Covers text i := by
  rw [ofPattern, attempt] at h
  split at h
  · rename_i found hfind
    cases h
    have hprefix := prefix_of_find_whole hfind
    rw [← String.toList_ofList (l := found)] at hprefix
    have hcovers := Outcome.covers_of_isPrefix h0 h1 hprefix
    rw [String.length_ofList] at hcovers
    exact hcovers
  · cases h
    trivial
  · cases h
    trivial
  · cases h

end Leaf

/-! ## Parsers that put together what they take -/

namespace Parser

/-- The parser takes text with literals and whole matches of patterns, and puts together
what it takes, without leaving anything out. What is only asked to be absent may be any
parser. The recursive parsers that it refers to are among the given ones. -/
inductive Collects (own : Handle → Prop) : Parser → Prop where
  | string (literal : String) : Collects own (string literal)
  | ofPattern (pattern : Pattern) : Collects own (leaf (.ofPattern pattern))
  | endOfText : Collects own endOfText
  | nothing : Collects own (succeed (.list []))
  | fail (expect : String) : Collects own (fail expect)
  | pair {p q : Parser} : Collects own p → Collects own q → Collects own (p.pair q)
  | or {p q : Parser} : Collects own p → Collects own q → Collects own (p.or q)
  | cons {p q : Parser} : Collects own p → Collects own q → Collects own (p.cons q)
  | snoc {p q : Parser} : Collects own p → Collects own q → Collects own (p.snoc q)
  | many {p : Parser} : Collects own p → Collects own p.many
  | toEnd {p : Parser} : Collects own p → Collects own p.toEnd
  | describe {p : Parser} (expect : String) : Collects own p → Collects own (p.describe expect)
  | not (p : Parser) : Collects own p.not
  | notFollowedBy {p : Parser} (q : Parser) : Collects own p → Collects own (p.notFollowedBy q)
  | ref {handle : Handle} : own handle → Collects own (ref handle)

variable {own : Handle → Prop} {rules : Rules} {p : Parser} {ps : List Parser}

theorem Collects.many1 (h : p.Collects own) : p.many1.Collects own := h.cons h.many

theorem Collects.foldl_snoc (h : p.Collects own) (hps : ∀ q ∈ ps, q.Collects own) :
    (ps.foldl Parser.snoc p).Collects own := by
  induction ps generalizing p with
  | nil => exact h
  | cons q ps ih =>
    have hq := hps q List.mem_cons_self
    exact ih (h.snoc hq) fun q' hq' => hps q' (List.mem_cons_of_mem q hq')

theorem Collects.seq (hps : ∀ q ∈ ps, q.Collects own) : (seq ps).Collects own :=
  Collects.nothing.foldl_snoc hps

theorem Collects.foldl_or (h : p.Collects own) (hps : ∀ q ∈ ps, q.Collects own) :
    (ps.foldl Parser.or p).Collects own := by
  induction ps generalizing p with
  | nil => exact h
  | cons q ps ih =>
    have hq := hps q List.mem_cons_self
    exact ih (h.or hq) fun q' hq' => hps q' (List.mem_cons_of_mem q hq')

theorem Collects.choice (hps : ∀ q ∈ ps, q.Collects own) : (choice ps).Collects own := by
  cases ps with
  | nil => exact .fail _
  | cons p ps =>
    have hp := hps p List.mem_cons_self
    exact hp.foldl_or fun q hq => hps q (List.mem_cons_of_mem p hq)

/-! ## Values put together -/

/-- The function makes of a pair a value that holds the strings of its first part and
then those of its second. -/
def Joins (f : Value → Action Value) : Prop :=
  ∀ a b w, (f (.pair a b)).result = .ok w → w.letters = a.letters ++ b.letters

theorem result_elementsOf {v : Value} {items : List Value} (h : (elementsOf v).result = .ok items) :
    v.elements? = some items := by
  unfold elementsOf at h
  cases hv : v.elements? with
  | none => rw [hv] at h; cases h
  | some items' => rw [hv] at h; cases h; rfl

theorem joins_consValues : Joins consValues := by
  intro a b w h
  rw [result_consValues] at h
  split at h
  · cases h
  · rename_i others hothers
    cases h
    rw [Value.letters, Value.lettersOfAll, Value.lettersOfAll_of_elements hothers]
    rfl

theorem joins_snocValues : Joins snocValues := by
  intro a b w h
  simp only [snocValues, bind, Action.andThen] at h
  split at h
  · cases h
  · rename_i items hitems
    cases h
    rw [Value.letters, Value.lettersOfAll_append,
      Value.lettersOfAll_of_elements (result_elementsOf hitems)]
    simp [Value.lettersOfAll]

end Parser

/-! ## Scripts put together -/

namespace Script

theorem parts_of_mem_pairWith {s : Script} {second : Int → Script} {w : Value}
    (h : .success k w ∈ (s.pairWith second).outcomes) : ∃ j a b, .success j a ∈ s.outcomes ∧
      .success k b ∈ (second j).outcomes ∧ w = .pair a b := by
  rcases mem_outcomes_pairWith h with ⟨_, _, hfail, _⟩ | ⟨j, a, o, ha, ho, hpair⟩
  · cases hfail
  · cases o with
    | failure index expect => cases hpair
    | success k' b =>
      cases hpair
      exact ⟨j, a, b, ha, ho, rfl⟩

theorem value_of_mem_change {s : Script} {f : Value → Action Value} {w : Value}
    (h : .success k w ∈ (s.change fun o => Parser.onValue f o i).outcomes) :
    ∃ v, .success k v ∈ s.outcomes ∧ (f v).result = .ok w := by
  obtain ⟨o, ho, hresult⟩ := mem_outcomes_change h
  rcases Parser.result_onValue hresult with ⟨_, _, rfl, hfail⟩ | ⟨j, v, w', rfl, hw, hsame⟩
  · cases hfail
  · cases hsame
    exact ⟨v, ho, hw⟩

/-- From a start in the text, every success of the script holds what it takes. -/
def Covers (text : Text) (i : Int) (s : Script) : Prop :=
  0 ≤ i → i ≤ text.length → ∀ o ∈ s.outcomes, o.Covers text i

variable {s t : Script} {second : Int → Script}

theorem Covers.append (hs : s.Covers text i) (ht : t.Covers text i) : (s.append t).Covers text i := by
  intro h0 h1 o ho
  rcases mem_outcomes_append ho with ho | ho
  · exact hs h0 h1 o ho
  · exact ht h0 h1 o ho

/-- A second part starts in the text, where the first has ended. -/
theorem Covers.behind (hs : s.Covers text i) (hsecond : ∀ j, (second j).Covers text j) (h0 : 0 ≤ i)
    (h1 : i ≤ text.length) {a b : Value} (ha : .success j a ∈ s.outcomes)
    (hb : .success k b ∈ (second j).outcomes) : (Outcome.success k b).Covers text j := by
  obtain ⟨hij, hj, _⟩ := hs h0 h1 _ ha
  exact hsecond j (by omega) hj _ hb

theorem Covers.pairWith (hs : s.Covers text i) (hsecond : ∀ j, (second j).Covers text j) :
    (s.pairWith second).Covers text i := by
  intro h0 h1 o ho
  cases o with
  | failure index expect => trivial
  | success k v =>
    obtain ⟨j, a, b, ha, hb, rfl⟩ := parts_of_mem_pairWith ho
    exact (hs h0 h1 _ ha).joined h0 (hs.behind hsecond h0 h1 ha hb) (Value.letters_pair a b)

/-- A pair that is made into another value keeps its strings. -/
theorem Covers.joined {f : Value → Action Value} (hf : Parser.Joins f) (hs : s.Covers text i)
    (hsecond : ∀ j, (second j).Covers text j) :
    ((s.pairWith second).change fun o => Parser.onValue f o i).Covers text i := by
  intro h0 h1 o ho
  cases o with
  | failure index expect => trivial
  | success k w =>
    obtain ⟨v, hv, hw⟩ := value_of_mem_change ho
    obtain ⟨j, a, b, ha, hb, rfl⟩ := parts_of_mem_pairWith hv
    exact (hs h0 h1 _ ha).joined h0 (hs.behind hsecond h0 h1 ha hb) (hf a b w hw)

/-- Only the first value is kept of a pair whose second part takes nothing. -/
theorem Covers.keepFirst (hs : s.Covers text i)
    (hsecond : ∀ j k b, .success k b ∈ (second j).outcomes → k = j) :
    ((s.pairWith second).change fun o => Parser.onValue (fun v => pure v.first) o i).Covers text i := by
  intro h0 h1 o ho
  cases o with
  | failure index expect => trivial
  | success k w =>
    obtain ⟨v, hv, hw⟩ := value_of_mem_change ho
    obtain ⟨j, a, b, ha, hb, rfl⟩ := parts_of_mem_pairWith hv
    cases hw
    rw [hsecond j k b hb, Value.first_pair]
    exact hs h0 h1 _ ha

theorem Covers.described (expect : String) (hs : s.Covers text i) :
    (s.change fun o => Parser.described expect o i).Covers text i := by
  intro h0 h1 o ho
  obtain ⟨o', ho', hresult⟩ := mem_outcomes_change ho
  cases o' with
  | failure index expect' => cases hresult; trivial
  | success j v => cases hresult; exact hs h0 h1 _ ho'

theorem Covers.advancing (hs : s.Covers text i) :
    (s.change fun o => Parser.requireProgress o i).Covers text i := by
  intro h0 h1 o ho
  obtain ⟨o', ho', hresult⟩ := mem_outcomes_change ho
  rw [(Parser.result_requireProgress hresult).1]
  exact hs h0 h1 o' ho'

theorem covers_single_nothing {v : Value} (hv : v.letters = []) :
    (single (.success i v)).Covers text i := by
  intro _ h1 o ho
  rw [outcomes_single, List.mem_singleton] at ho
  subst ho
  exact Outcome.covers_of_nothing h1 hv

theorem covers_ofResult {x : Except Fault Outcome}
    (hx : 0 ≤ i → i ≤ text.length → ∀ o, x = .ok o → o.Covers text i) : (ofResult x).Covers text i := by
  intro h0 h1 o ho
  exact hx h0 h1 o (mem_outcomes_ofResult.mp ho)

/-- What is absent takes nothing. -/
theorem stop_of_mem_negate {v : Value} (h : .success j v ∈ (s.negate text i).outcomes) :
    j = i ∧ v = .none := by
  rcases mem_outcomes_negate h with ⟨stop, h⟩ | h
  · cases h
  · cases h
    exact ⟨rfl, rfl⟩

theorem covers_negate : (s.negate text i).Covers text i := by
  intro _ h1 o ho
  cases o with
  | failure index expect => trivial
  | success j v =>
    obtain ⟨rfl, rfl⟩ := stop_of_mem_negate ho
    exact Outcome.covers_of_nothing h1 rfl

end Script

namespace Parser

variable {rules : Rules} {own : Handle → Prop} {p : Parser}

theorem covers_repeated {body : Int → Script} (hbody : ∀ i, (body i).Covers text i) (n : Nat) (i : Int) :
    (repeated body n i).Covers text i := by
  induction n generalizing i with
  | zero =>
    intro _ _ o ho
    cases ho
  | succ n ih =>
    have hmore := (hbody i).advancing.joined joins_consValues ih
    exact hmore.append (Script.covers_single_nothing rfl)

/-! ## The law of collected text -/

/-- One level of recursion. -/
theorem Collects.covers_scriptWith {recursive : Handle → Int → Script}
    (hr : ∀ handle, own handle → ∀ i, (recursive handle i).Covers text i) {n : Nat}
    (hp : p.Collects own) (i : Int) : (p.scriptWith text n recursive i).Covers text i := by
  induction hp generalizing i with
  | string literal => exact Script.covers_ofResult fun h0 h1 o => Leaf.covers_string h0 h1
  | ofPattern pattern => exact Script.covers_ofResult fun h0 h1 o => Leaf.covers_ofPattern h0 h1
  | endOfText =>
    refine Script.covers_ofResult fun _ h1 o h => ?_
    rw [Leaf.attempt] at h
    split at h
    · cases h
      exact Outcome.covers_of_nothing h1 rfl
    · cases h
      trivial
  | nothing => exact Script.covers_single_nothing rfl
  | fail expect =>
    refine Script.covers_ofResult fun _ _ o h => ?_
    cases h
    trivial
  | pair _ _ ihp ihq => exact (ihp i).pairWith ihq
  | or _ _ ihp ihq => exact (ihp i).append (ihq i)
  | cons _ _ ihp ihq => exact (ihp i).joined joins_consValues ihq
  | snoc _ _ ihp ihq => exact (ihp i).joined joins_snocValues ihq
  | many _ ih => exact covers_repeated ih n i
  | toEnd _ ih =>
    refine (ih i).keepFirst fun j k b hb => ?_
    have hresult := Script.mem_outcomes_ofResult.mp hb
    rw [Leaf.attempt] at hresult
    split at hresult <;> cases hresult
    rfl
  | describe expect _ ih => exact (ih i).described expect
  | not q => exact Script.covers_negate
  | notFollowedBy q _ ih =>
    exact (ih i).keepFirst fun j k b hb => (Script.stop_of_mem_negate hb).1
  | ref hown => exact hr _ hown i

theorem Collects.covers_script
    (hrules : ∀ handle body, own handle → rules.body? handle = some body → body.Collects own)
    (hp : p.Collects own) (n : Nat) (i : Int) : (p.script rules text n i).Covers text i := by
  induction n generalizing p i with
  | zero =>
    refine hp.covers_scriptWith (fun handle _ i _ _ o ho => ?_) i
    cases ho
  | succ n ih =>
    refine hp.covers_scriptWith (fun handle hown i => ?_) i
    cases hb : rules.body? handle with
    | none =>
      intro _ _ o ho
      cases ho
    | some body => exact ih (hrules handle body hown hb) i

/-- From every start in the text, every success that a parser gives that only puts
together what it takes ends in the text behind its start, and the strings in its value,
from left to right, are exactly the text between the two. -/
theorem collected_strings_are_the_text_taken
    (hrules : ∀ handle body, own handle → rules.body? handle = some body → body.Collects own)
    (hp : p.Collects own) (h0 : 0 ≤ i) (h1 : i ≤ text.length) {v : Value}
    (h : p.Yields rules text i (.success j v)) :
    i ≤ j ∧ j ≤ text.length ∧ v.letters = text.between i j := by
  obtain ⟨n, hn⟩ := h.mem_script
  exact hp.covers_script hrules n i h0 h1 _ hn

/-- Fences in each other, and a closing fence of which nothing is kept. -/
def fences : Rules :=
  ⟨#[some (((string "(").pair (ref 0).many).pair (string ")")), some ((string ")").as .none)]⟩

/-- A letter and fences, with no closing fence behind them. -/
def fencedLetter : Parser := (seq [leaf .letter, (ref 0).many1]).notFollowedBy (ref 1)

theorem fencedLetter_collects : fencedLetter.Collects (· = 0) := by
  have hparts : ∀ q ∈ [leaf .letter, (ref 0).many1], q.Collects (· = 0) := by
    intro q hq
    simp only [List.mem_cons, List.not_mem_nil, or_false] at hq
    rcases hq with rfl | rfl
    · exact .ofPattern .letter
    · exact Collects.many1 (.ref rfl)
  exact .notFollowedBy _ (Collects.seq hparts)

/-- Only the table that is not asked to be absent puts together what it takes. -/
theorem fences_collect (handle : Handle) (body : Parser) (hown : handle = 0)
    (hb : fences.body? handle = some body) : body.Collects (· = 0) := by
  subst hown
  cases hb
  exact .pair (.pair (.string "(") (.many (.ref rfl))) (.string ")")

theorem fenced_letter_holds_what_it_takes :
    let inner : Value := .pair (.pair (.str "(") (.list [])) (.str ")")
    let outer : Value := .pair (.pair (.str "(") (.list [inner])) (.str ")")
    let v : Value := .list [.str "b", .list [outer]]
    (∀ handle body, handle = 0 → fences.body? handle = some body → body.Collects (· = 0)) ∧
      fencedLetter.Collects (· = 0) ∧
      fencedLetter.Yields fences ['a', 'b', '(', '(', ')', ')'] 1 (.success 6 v) ∧
      v.letters = Text.between ['a', 'b', '(', '(', ')', ')'] 1 6 := by
  intro inner outer v
  have hfourth : (fencedLetter.script fences ['a', 'b', '(', '(', ')', ')'] 4 1).outcomes[3]? =
      some (.success 6 v) := rfl
  have hyields := yields_of_mem_script (List.mem_of_getElem? hfourth)
  have hlaw := collected_strings_are_the_text_taken fences_collect fencedLetter_collects
    (by decide) (by decide) hyields
  exact ⟨fences_collect, fencedLetter_collects, hyields, hlaw.2.2⟩

end Parser

end Backtrack
