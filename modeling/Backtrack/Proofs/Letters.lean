-- The law of letters: the letters from `a` to `z` in either case are those of ASCII and four
-- more, since a letter of another script may be a case of one of them. Carried by the tables
-- of cases read backwards: from a small letter of ASCII they lead to few characters.
import Backtrack.Proofs.LongestRun

namespace Backtrack

/-! ## Cases read backwards -/

variable {code small n : Nat}

/-- A code point is its own small letter or one of the capitals of its small letter. -/
theorem mem_smallLetter_capitals (code : Nat) :
    code ∈ smallLetter code :: capitalsOf (smallLetter code) := by
  have hdistances : ∀ run ∈ capitalRuns, 0 ≤ run.first + run.distance := by decide +kernel
  unfold smallLetter
  cases hrun : capitalRuns.find? (·.holds code) with
  | none => exact List.mem_cons_self
  | some run =>
    have hmem := List.mem_of_find?_eq_some hrun
    have hholds := List.find?_some hrun
    have hfirst : run.first ≤ code := by
      simp only [CapitalRun.holds, Bool.and_eq_true, decide_eq_true_eq] at hholds
      exact hholds.1.1
    have hdistance := hdistances run hmem
    have hback : ((((code : Int) + run.distance).toNat : Int) - run.distance).toNat = code := by
      omega
    refine List.mem_cons_of_mem _ (List.mem_filterMap.mpr ⟨run, hmem, ?_⟩)
    simp only [hback, hholds, if_true]

/-- A small letter stands for itself or is a twin of the one that it stands for. -/
def twinsBack (small : Nat) : List Nat :=
  small :: letterTwins.filterMap fun twin => if twin.1 = small then some twin.2 else none

theorem smallLetter_mem_twinsBack (code : Nat) : smallLetter code ∈ twinsBack (letterOf code) := by
  cases htwin : letterTwins.find? (·.2 == smallLetter code) with
  | none =>
    have hself : letterOf code = smallLetter code := by simp only [letterOf, htwin]
    rw [hself]
    exact List.mem_cons_self
  | some twin =>
    have hleast : letterOf code = twin.1 := by simp only [letterOf, htwin]
    have hmem := List.mem_of_find?_eq_some htwin
    have hsame := List.find?_some htwin
    rw [beq_iff_eq] at hsame
    rw [hleast, ← hsame]
    exact List.mem_cons_of_mem _ (List.mem_filterMap.mpr ⟨twin, hmem, if_pos rfl⟩)

/-- No capital and no twin is a small letter of ASCII. So such a letter is a case of a
character only if its small letter stands for it. -/
theorem letterOf_of_mem_casesOf (h : n ∈ casesOf code) (hfirst : 0x61 ≤ n) (hlast : n ≤ 0x7A) :
    letterOf (smallLetter code) = n := by
  have hcapitals : ∀ run ∈ capitalRuns, run.last < 0x61 ∨ 0x7A < run.first := by decide +kernel
  have htwins : ∀ twin ∈ letterTwins, 0x7A < twin.2 := by decide +kernel
  obtain ⟨small, hsmall, hn⟩ := List.mem_flatMap.mp h
  rcases List.mem_cons.mp hn with rfl | hn
  · rcases List.mem_cons.mp hsmall with rfl | htwin
    · rfl
    · obtain ⟨twin, hmem, htwin⟩ := List.mem_filterMap.mp htwin
      have hlarge := htwins twin hmem
      split at htwin
      · cases htwin
        omega
      · cases htwin
  · obtain ⟨run, hmem, hrun⟩ := List.mem_filterMap.mp hn
    have hapart := hcapitals run hmem
    simp only at hrun
    split at hrun
    · rename_i hholds
      cases hrun
      simp only [CapitalRun.holds, Bool.and_eq_true, decide_eq_true_eq] at hholds
      omega
    · cases hrun

/-- All code points that can have a small letter for a case. -/
def originsOf (small : Nat) : List Nat :=
  (twinsBack small).flatMap fun s =>
    (s :: capitalsOf s).flatMap fun s => s :: capitalsOf s

theorem mem_originsOf (h : letterOf (smallLetter code) = small) : code ∈ originsOf small := by
  subst h
  refine List.mem_flatMap.mpr ⟨_, smallLetter_mem_twinsBack _, ?_⟩
  refine List.mem_flatMap.mpr ⟨_, mem_smallLetter_capitals _, ?_⟩
  exact mem_smallLetter_capitals code

/-! ## The letters -/

/-- The letters of other scripts that are cases of a letter of ASCII: the capital of `i` with
its dot, the small `i` without one, the long `s`, and the sign of the kelvin. -/
def foreignLetters : List Char := ['\u0130', '\u0131', '\u017f', '\u212a']

/-- A letter of ASCII, or one of other scripts that is a case of it. -/
def isLetter (c : Char) : Bool := c.isAlpha || foreignLetters.contains c

theorem isAlpha_iff (c : Char) : c.isAlpha ↔
    (0x41 ≤ c.toNat ∧ c.toNat ≤ 0x5A) ∨ 0x61 ≤ c.toNat ∧ c.toNat ≤ 0x7A := by
  have hcapital : c.isUpper ↔ 0x41 ≤ c.toNat ∧ c.toNat ≤ 0x5A := decide_eq_true_iff
  have hsmall : c.isLower ↔ 0x61 ≤ c.toNat ∧ c.toNat ≤ 0x7A :=
    Bool.and_eq_true_iff.trans (and_congr decide_eq_true_iff decide_eq_true_iff)
  exact Bool.or_eq_true_iff.trans (or_congr hcapital hsmall)

/-- The code points of letters. -/
def letterCodes : List Nat :=
  List.range' 0x41 26 ++ List.range' 0x61 26 ++ foreignLetters.map Char.toNat

theorem toNat_mem_letterCodes (c : Char) : c.toNat ∈ letterCodes ↔ isLetter c := by
  have hforeign : c.toNat ∈ foreignLetters.map Char.toNat ↔ c ∈ foreignLetters :=
    List.mem_map_of_injective fun _ _ h => Char.toNat_inj.mp h
  simp only [letterCodes, isLetter, List.mem_append, List.mem_range'_1, hforeign, Bool.or_eq_true,
    isAlpha_iff, List.contains_iff_mem]
  refine or_congr (or_congr ?_ ?_) Iff.rfl <;> omega

/-- The set of letters from `a` to `z` in either case holds exactly the letters. -/
theorem accepts_letterSet (c : Char) : Pattern.letterSet.accepts c = isLetter c := by
  -- Looking through all characters would take too long, those that the tables lead back to are few.
  have hback : ∀ small ∈ List.range' 0x61 26, ∀ code ∈ originsOf small, code ∈ letterCodes := by
    decide +kernel
  have hthere : ∀ code ∈ letterCodes, ∃ n ∈ casesOf code, 0x61 ≤ n ∧ n ≤ 0x7A := by
    decide +kernel
  have haccepts : Pattern.letterSet.accepts c ↔ ∃ n ∈ casesOf c.toNat, 0x61 ≤ n ∧ n ≤ 0x7A := by
    simp [Pattern.CharSet.accepts, Pattern.letterSet, Pattern.between, Pattern.SetItem.covers,
      Pattern.CaseRule.cases]
  rw [Bool.eq_iff_iff, haccepts, ← toNat_mem_letterCodes]
  constructor
  · rintro ⟨n, hn, hfirst, hlast⟩
    have horigin := mem_originsOf (letterOf_of_mem_casesOf hn hfirst hlast)
    exact hback n (List.mem_range'_1.mpr ⟨hfirst, by omega⟩) _ horigin
  · exact hthere c.toNat

/-- The run of letters goes on behind those of ASCII exactly if a letter of another script
stands there. -/
theorem takeWhile_isLetter_eq_iff (w : Text) : w.takeWhile isLetter = w.takeWhile Char.isAlpha ↔
    ∀ c rest, w.dropWhile Char.isAlpha = c :: rest → c ∉ foreignLetters := by
  induction w with
  | nil => simp
  | cons x w ih =>
    by_cases hx : x.isAlpha
    · have hletter : isLetter x := by simp [isLetter, hx]
      rw [List.takeWhile_cons_of_pos hletter, List.takeWhile_cons_of_pos hx,
        List.dropWhile_cons_of_pos hx, List.cons_inj_right, ih]
    · rw [List.takeWhile_cons_of_neg hx, List.dropWhile_cons_of_neg hx]
      by_cases hforeign : x ∈ foreignLetters
      · have hletter : isLetter x := by simp [isLetter, hforeign]
        rw [List.takeWhile_cons_of_pos hletter]
        simp [hforeign]
      · have hletter : ¬ isLetter x := by simp [isLetter, hx, hforeign]
        rw [List.takeWhile_cons_of_neg hletter]
        simp [hforeign]

namespace Parser

variable {rules : Rules} {text w : Text} {i : Int}

/-! ## The law of letters -/

/-- From an offset, the leaf for letters takes a text if that is not empty, and fails there if
it is. Any number of single letters take the starts of the text, longest first. -/
def TakesLetters (rules : Rules) (text : Text) (i : Int) (w : Text) : Prop :=
  ∃ taken outcomes, (leaf .letters).Exhausts rules text i [] [taken] ∧
    (leaf .letter).many.Exhausts rules text i [] outcomes ∧
    (w ≠ [] → taken = .success (i + w.length) (.str (String.ofList w))) ∧
    (w = [] → ∃ expect, taken = .failure i expect) ∧
    Outcome.successes outcomes = (w.startsFrom 0).map (Outcome.oneByOne i)

theorem takesLetters_iff (h0 : 0 ≤ i) :
    TakesLetters rules text i w ↔ w = (text.remainder i).takeWhile isLetter := by
  have hrun : (text.remainder i).takeWhile isLetter = text.runOf Pattern.letterSet i := by
    unfold Text.runOf
    rw [funext accepts_letterSet]
  rw [hrun]
  constructor
  · rintro ⟨taken, outcomes, hletters, -, htaken, hfails, -⟩
    -- The one outcome of the leaf is known, and no two texts go with the same one.
    have htakenRun := List.singleton_inj.mp ((exhausts_leaf_iff Leaf.attempt_run).mp hletters).2
    by_cases hnil : w = []
    · obtain ⟨expect, hfailure⟩ := hfails hnil
      rw [htakenRun] at hfailure
      split at hfailure
      · cases hfailure
      · rename_i hshort
        have hempty : text.runOf Pattern.letterSet i = [] := List.length_eq_zero_iff.mp (by omega)
        rw [hnil, hempty]
    · have hsuccess := htaken hnil
      rw [htakenRun] at hsuccess
      split at hsuccess
      · simp only [Outcome.success.injEq, Value.str.injEq, String.ofList_inj] at hsuccess
        exact hsuccess.2.symm
      · cases hsuccess
  · rintro rfl
    refine ⟨_, _, (exhausts_leaf_iff Leaf.attempt_run).mpr ⟨rfl, rfl⟩,
      exhausts_many_ofPattern Pattern.findsOne_one h0, ?_, ?_, Outcome.successes_ofRun⟩
    · intro hne
      exact if_pos (List.length_pos_iff.mpr hne)
    · intro hnil
      exact ⟨_, if_neg (by simp [hnil])⟩

/-- The longest run of letters is taken: letters of ASCII, and four letters of other scripts. So
a run of letters of ASCII is taken as it is exactly if none of the four stands behind it. -/
theorem letters_take_four_more_than_ascii (rules : Rules) (text : Text) (i : Nat) :
    TakesLetters rules text i ((text.remainder i).takeWhile isLetter) ∧
    (TakesLetters rules text i ((text.remainder i).takeWhile Char.isAlpha) ↔
      ∀ c rest, (text.remainder i).dropWhile Char.isAlpha = c :: rest → c ∉ foreignLetters) := by
  have h0 : (0 : Int) ≤ i := Int.natCast_nonneg i
  rw [takesLetters_iff h0, takesLetters_iff h0, ← takeWhile_isLetter_eq_iff]
  exact ⟨rfl, eq_comm⟩

/-- The sign of the kelvin is taken for a letter. -/
theorem kelvin_is_taken_for_a_letter :
    let text : Text := ['\u212a']
    (leaf .letters).Exhausts .empty text 0 [] [.success 1 (.str "\u212a")] ∧
      ¬ TakesLetters .empty text 0 ((text.remainder 0).takeWhile Char.isAlpha) := by
  intro text
  refine ⟨(exhausts_leaf_iff Leaf.attempt_run).mpr ⟨rfl, ?_⟩, ?_⟩
  · have hrun : Text.runOf text Pattern.letterSet 0 = text := by decide +kernel
    rw [hrun]
    rfl
  · rw [takesLetters_iff (by decide), eq_comm, takeWhile_isLetter_eq_iff]
    intro hnone
    exact hnone '\u212a' [] rfl (by decide)

end Parser

end Backtrack
