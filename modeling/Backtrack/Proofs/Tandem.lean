-- Building in tandem: a grammar and the same grammar with its repetitions written as recursions
-- are built side by side. Each recursion of the grammar gets a handle on both sides, which are
-- partners from then on, and each repetition gets one more on the second side. So what is built
-- on the second side spells out what is built on the first.
import Backtrack.Proofs.Respelling
import Backtrack.Proofs.Spelling
import Mathlib.Data.List.Forall2
import Mathlib.Data.List.Nodup

namespace Backtrack

/-! ## What building leaves -/

namespace Build

variable {α β : Type} {rules rules' rules'' : Rules}

/-- The step gives something and leaves a table, whatever it records. -/
def Leaves (x : Build α) (rules : Rules) (a : α) (rules' : Rules) : Prop :=
  ∃ events, x.Gives rules events (.ok (a, rules'))

theorem Leaves.of_pure {a b : α} (h : Leaves (pure a) rules b rules') : b = a ∧ rules' = rules := by
  obtain ⟨events, h⟩ := h
  cases h
  exact ⟨rfl, rfl⟩

theorem Leaves.of_bind {x : Build α} {f : α → Build β} {b : β} (h : (x >>= f).Leaves rules b rules'') :
    ∃ a rules', x.Leaves rules a rules' ∧ (f a).Leaves rules' b rules'' := by
  obtain ⟨events, h⟩ := h
  have hrun : (x >>= f).run rules = x.run rules >>= fun y => (f y.1).run y.2 := rfl
  rw [Gives, hrun] at h
  rcases Search.of_bind h with ⟨_, _, _, hb⟩ | ⟨before, ⟨a, rules'⟩, ⟨later, result⟩, hx, hf, hb⟩
  · cases hb
  · cases hb
    exact ⟨a, rules', ⟨before, hx⟩, later, hf⟩

theorem Leaves.of_ensures {P : α → Rules → Prop} {x : Build α} {a : α} (h : x.Leaves rules a rules')
    (hx : x.Ensures rules P) : P a rules' := by
  obtain ⟨events, h⟩ := h
  exact hx events (a, rules') h

end Build

namespace Grammar

variable {fuel : Nat} {scope : Scope} {rules rules'' : Rules} {q : Parser}

theorem leaves_leaf {l : Leaf} (h : ((leaf l).build fuel scope).Leaves rules q rules'') :
    q = .leaf l ∧ rules'' = rules := by
  rw [build] at h
  exact h.of_pure

theorem leaves_custom {step : Text → Int → Action Script}
    (h : ((custom step).build fuel scope).Leaves rules q rules'') :
    q = .custom step ∧ rules'' = rules := by
  rw [build] at h
  exact h.of_pure

theorem leaves_regexp {w : WrittenPattern} (h : ((regexp w).build fuel scope).Leaves rules q rules'') :
    ∃ l, w.leaf = .ok l ∧ q = .leaf l ∧ rules'' = rules := by
  rw [build] at h
  obtain ⟨events, h⟩ := h
  cases hl : w.leaf with
  | error fault =>
    rw [hl] at h
    cases h
  | ok l =>
    rw [hl] at h
    cases h
    exact ⟨l, rfl, rfl, rfl⟩

theorem leaves_seq {gs : List Grammar} (h : ((seq gs).build fuel scope).Leaves rules q rules'') :
    ∃ ps, (buildAll fuel scope gs).Leaves rules ps rules'' ∧ q = .seq ps := by
  rw [build] at h
  obtain ⟨ps, _, hps, h⟩ := h.of_bind
  obtain ⟨rfl, rfl⟩ := h.of_pure
  exact ⟨ps, hps, rfl⟩

theorem leaves_choice {gs : List Grammar} (h : ((choice gs).build fuel scope).Leaves rules q rules'') :
    ∃ ps, (buildAll fuel scope gs).Leaves rules ps rules'' ∧ q = .choice ps := by
  rw [build] at h
  obtain ⟨ps, _, hps, h⟩ := h.of_bind
  obtain ⟨rfl, rfl⟩ := h.of_pure
  exact ⟨ps, hps, rfl⟩

theorem leaves_unary {op : UnaryOp} {g : Grammar}
    (h : ((unary op g).build fuel scope).Leaves rules q rules'') :
    ∃ p, (g.build fuel scope).Leaves rules p rules'' ∧ q = op.apply p := by
  rw [build] at h
  obtain ⟨p, rules', hp, h⟩ := h.of_bind
  obtain ⟨rfl, rfl⟩ := h.of_pure
  exact ⟨p, hp, rfl⟩

theorem leaves_binary {op : BinaryOp} {g h : Grammar}
    (hbuild : ((binary op g h).build fuel scope).Leaves rules q rules'') :
    ∃ p rules' p', (g.build fuel scope).Leaves rules p rules' ∧
      (h.build fuel scope).Leaves rules' p' rules'' ∧ q = op.apply p p' := by
  rw [build] at hbuild
  obtain ⟨p, rules', hp, hbuild⟩ := hbuild.of_bind
  obtain ⟨p', _, hp', hbuild⟩ := hbuild.of_bind
  obtain ⟨rfl, rfl⟩ := hbuild.of_pure
  exact ⟨p, rules', p', hp, hp', rfl⟩

theorem leaves_ref {name : String} (h : ((ref name).build fuel scope).Leaves rules q rules'') :
    scope.lookup name = some q ∧ rules'' = rules := by
  rw [build] at h
  obtain ⟨events, h⟩ := h
  cases hp : scope.lookup name with
  | none =>
    rw [hp] at h
    cases h
  | some p =>
    rw [hp] at h
    cases h
    exact ⟨rfl, rfl⟩

theorem leaves_recursive {name : String} {early : Option String} {g : Grammar}
    (h : ((recursive name early g).build fuel scope).Leaves rules q rules'') :
    ∃ body rules',
      (g.build fuel ((name, .ref rules.nextHandle) :: scope)).Leaves rules.reserve body rules' ∧
      q = .ref rules.nextHandle ∧ rules'' = rules'.define rules.nextHandle body := by
  rw [build] at h
  obtain ⟨handle, _, hreserve, h⟩ := h.of_bind
  obtain ⟨rfl, rfl⟩ := hreserve.of_ensures Build.ensures_reserve
  obtain ⟨_, _, hemit, h⟩ := h.of_bind
  obtain ⟨rfl, -⟩ := hemit.of_ensures (Build.ensures_lift (Search.sameAs_action _).ensures)
  have hrest : (do
      let body ← g.build fuel ((name, .ref rules.nextHandle) :: scope)
      Build.define rules.nextHandle body
      return .ref rules.nextHandle : Build Parser).Leaves rules.reserve q rules'' := by
    cases early with
    | none => exact h
    | some text =>
      obtain ⟨table, _, hget, h⟩ := h.of_bind
      obtain rfl := hget.of_ensures Build.ensures_get
      obtain ⟨_, _, hstart, h⟩ := h.of_bind
      obtain ⟨_, rfl, -⟩ := hstart.of_ensures
        (Build.ensures_lift (Search.sameAs_action _).ensures).discard
      exact h
  obtain ⟨body, rules', hbody, hrest⟩ := hrest.of_bind
  obtain ⟨_, _, hdefine, hrest⟩ := hrest.of_bind
  obtain rfl := hdefine.of_ensures (Build.ensures_define _ _)
  obtain ⟨rfl, rfl⟩ := hrest.of_pure
  exact ⟨body, rules', hbody, rfl, rfl⟩

theorem leaves_given {names : List String} {gs : List Grammar} {body : Grammar}
    (h : ((given names gs body).build fuel scope).Leaves rules q rules'') :
    ∃ ps rules', (buildAll fuel scope gs).Leaves rules ps rules' ∧
      (body.build fuel (names.zip ps ++ scope)).Leaves rules' q rules'' := by
  rw [build] at h
  exact h.of_bind

theorem leaves_cons {g : Grammar} {gs : List Grammar} {qs : List Parser}
    (h : (buildAll fuel scope (g :: gs)).Leaves rules qs rules'') :
    ∃ p rules' ps, (g.build fuel scope).Leaves rules p rules' ∧
      (buildAll fuel scope gs).Leaves rules' ps rules'' ∧ qs = p :: ps := by
  rw [buildAll] at h
  obtain ⟨p, rules', hp, h⟩ := h.of_bind
  obtain ⟨ps, _, hps, h⟩ := h.of_bind
  obtain ⟨rfl, rfl⟩ := h.of_pure
  exact ⟨p, rules', ps, hp, hps, rfl⟩

/-- A repetition that is written as a recursion leaves one more handle, whose body says what
the repetition comes to. -/
theorem leaves_repetition {g : Grammar} (h : (g.repetition.build fuel scope).Leaves rules q rules'') :
    ∃ p rules', (g.build fuel scope).Leaves rules p rules' ∧ q = .ref rules'.nextHandle ∧
      rules'' = rules'.reserve.define rules'.nextHandle (p.repetitionBody rules'.nextHandle) := by
  obtain ⟨_, _, hitems, hrecursion⟩ := leaves_given h
  obtain ⟨_, _, _, hitem, hnone, rfl⟩ := leaves_cons hitems
  obtain ⟨rfl, rfl⟩ := hnone.of_pure
  obtain ⟨p, hp, rfl⟩ := leaves_unary hitem
  obtain ⟨_, _, hbody, rfl, rfl⟩ := leaves_recursive hrecursion
  obtain ⟨_, _, _, hmore, hnothing, rfl⟩ := leaves_binary hbody
  obtain ⟨_, _, _, hfirst, hrest, rfl⟩ := leaves_binary hmore
  obtain ⟨hlookup, rfl⟩ := leaves_ref hfirst
  obtain ⟨hlookup', rfl⟩ := leaves_ref hrest
  obtain ⟨rfl, rfl⟩ := leaves_leaf hnothing
  simp [List.lookup_cons] at hlookup hlookup'
  subst hlookup hlookup'
  exact ⟨p, _, hp, rfl, rfl⟩

theorem leaves_repetition1 {g : Grammar} (h : (g.repetition1.build fuel scope).Leaves rules q rules'') :
    ∃ p rules', (g.build fuel scope).Leaves rules p rules' ∧ q = p.cons (.ref rules'.nextHandle) ∧
      rules'' = rules'.reserve.define rules'.nextHandle (p.repetitionBody rules'.nextHandle) := by
  obtain ⟨_, _, hitems, hbody⟩ := leaves_given h
  obtain ⟨p, rules', _, hp, hnone, rfl⟩ := leaves_cons hitems
  obtain ⟨rfl, rfl⟩ := hnone.of_pure
  obtain ⟨_, _, _, hfirst, hmore, rfl⟩ := leaves_binary hbody
  obtain ⟨hlookup, rfl⟩ := leaves_ref hfirst
  obtain ⟨_, _, hitem, rfl, rfl⟩ := leaves_repetition hmore
  obtain ⟨hlookup', rfl⟩ := leaves_ref hitem
  simp at hlookup hlookup'
  subst hlookup hlookup'
  exact ⟨p, _, hp, rfl, rfl⟩

theorem leaves_separated {g separator : Grammar}
    (h : ((g.separated separator).build fuel scope).Leaves rules q rules'') :
    ∃ p rules₁ s rules₂, (g.build fuel scope).Leaves rules p rules₁ ∧
      (separator.build fuel scope).Leaves rules₁ s rules₂ ∧ q = p.cons (.ref rules₂.nextHandle) ∧
      rules'' = rules₂.reserve.define rules₂.nextHandle
        ((s.keepSecond p).repetitionBody rules₂.nextHandle) := by
  obtain ⟨_, _, hitems, hbody⟩ := leaves_given h
  obtain ⟨p, rules₁, _, hp, hseparator, rfl⟩ := leaves_cons hitems
  obtain ⟨s, rules₂, _, hs, hnone, rfl⟩ := leaves_cons hseparator
  obtain ⟨rfl, rfl⟩ := hnone.of_pure
  obtain ⟨_, _, _, hfirst, hmore, rfl⟩ := leaves_binary hbody
  obtain ⟨hlookup, rfl⟩ := leaves_ref hfirst
  obtain ⟨_, _, hlater, rfl, rfl⟩ := leaves_repetition hmore
  obtain ⟨_, _, _, hbetween, hitem, rfl⟩ := leaves_binary hlater
  obtain ⟨hlookup', rfl⟩ := leaves_ref hbetween
  obtain ⟨hlookup'', rfl⟩ := leaves_ref hitem
  simp [List.lookup_cons] at hlookup hlookup' hlookup''
  subst hlookup hlookup' hlookup''
  exact ⟨p, _, s, _, hp, hs, rfl, rfl⟩

end Grammar

/-! ## Partners -/

/-- The handle on the second side is the partner of the handle on the first. -/
def Partner (partners : List Handle) (handle handle' : Handle) : Prop :=
  partners[handle]? = some handle'

/-- Each handle that was given out on the first side has a partner on the second one, and no two
have the same. The bodies of partners are spelled out, or both are missing. -/
structure Tandem (partners : List Handle) (rules rules' : Rules) : Prop where
  length_eq : partners.length = rules.nextHandle
  lt_nextHandle : ∀ handle ∈ partners, handle < rules'.nextHandle
  nodup : partners.Nodup
  bodies : Parser.SpelledBodies (Partner partners) rules rules'

theorem Rules.Grows.body?_eq_some {rules rules' : Rules} (h : rules.Grows rules') {handle : Handle}
    {body : Parser} (hbody : rules.body? handle = some body) : rules'.body? handle = some body := by
  rcases Nat.lt_or_ge handle rules.nextHandle with hlt | hge
  · rw [h.body?_eq handle hlt, hbody]
  · rw [body?_eq_none hge] at hbody
    cases hbody

theorem partner_of_prefix {partners partners' : List Handle} (h : partners <+: partners')
    {handle handle' : Handle} (hpartner : Partner partners handle handle') :
    Partner partners' handle handle' := by
  obtain ⟨later, rfl⟩ := h
  obtain ⟨hlt, rfl⟩ := List.getElem?_eq_some_iff.mp hpartner
  rw [Partner, List.getElem?_append_left hlt]
  exact hpartner

/-- The pairs and the second table of before are still there. -/
structure Onward (partners partners' : List Handle) (rules' rules'' : Rules) : Prop where
  partners : partners <+: partners'
  grows : rules'.Grows rules''

theorem Onward.refl (partners : List Handle) (rules : Rules) : Onward partners partners rules rules :=
  ⟨List.prefix_refl _, .refl _⟩

theorem Onward.trans {partners partners' partners'' : List Handle} {rules rules' rules'' : Rules}
    (h : Onward partners partners' rules rules') (h' : Onward partners' partners'' rules' rules'') :
    Onward partners partners'' rules rules'' :=
  ⟨h.partners.trans h'.partners, h.grows.trans h'.grows⟩

theorem Onward.spelled {partners partners' : List Handle} {rules' rules'' : Rules}
    (h : Onward partners partners' rules' rules'') {p q : Parser}
    (hspelled : p.Spelled (Partner partners) rules' q) : p.Spelled (Partner partners') rules'' q :=
  hspelled.mono (fun _ _ => partner_of_prefix h.partners) fun _ _ => h.grows.body?_eq_some

namespace Tandem

variable {partners : List Handle} {rules rules' rules'' : Rules}

theorem empty : Tandem [] .empty .empty := ⟨rfl, nofun, List.nodup_nil, nofun⟩

/-- What is added to the second side alone changes nothing. -/
theorem grow (h : Tandem partners rules rules') (hgrows : rules'.Grows rules'') :
    Tandem partners rules rules'' := by
  refine ⟨h.length_eq, fun handle hmem => ?_, h.nodup, fun handle handle' hpartner => ?_⟩
  · exact Nat.lt_of_lt_of_le (h.lt_nextHandle handle hmem) hgrows.nextHandle_le
  · have hlt := h.lt_nextHandle handle' (List.mem_of_getElem? hpartner)
    have honward : Onward partners partners rules' rules'' := ⟨List.prefix_refl _, hgrows⟩
    rw [hgrows.body?_eq handle' hlt]
    rcases h.bodies handle handle' hpartner with hnone | ⟨body, body', hb, hb', hbody⟩
    · exact Or.inl hnone
    · exact Or.inr ⟨body, body', hb, hb', honward.spelled hbody⟩

/-- Handles that are given out side by side are partners. -/
theorem partner_nextHandle (h : Tandem partners rules rules') :
    Partner (partners ++ [rules'.nextHandle]) rules.nextHandle rules'.nextHandle := by
  rw [Partner, ← h.length_eq, List.getElem?_concat_length]

theorem reserve (h : Tandem partners rules rules') :
    Tandem (partners ++ [rules'.nextHandle]) rules.reserve rules'.reserve := by
  have hold := h.grow rules'.grows_reserve
  have honward : Onward partners (partners ++ [rules'.nextHandle]) rules'.reserve rules'.reserve :=
    ⟨List.prefix_append _ _, .refl _⟩
  refine ⟨?_, List.forall_mem_append.mpr ⟨hold.lt_nextHandle, ?_⟩, ?_, fun handle handle' hpartner => ?_⟩
  · rw [List.length_append, List.length_singleton, h.length_eq, Rules.nextHandle_reserve]
  · simpa using rules'.nextHandle_lt_reserve
  · refine h.nodup.append (List.nodup_singleton _) (List.disjoint_singleton.mpr fun hmem => ?_)
    exact Nat.lt_irrefl _ (h.lt_nextHandle _ hmem)
  · rw [Rules.body?_reserve]
    rcases Nat.lt_or_ge handle partners.length with hlt | hge
    · rw [Partner, List.getElem?_append_left hlt] at hpartner
      rcases hold.bodies handle handle' hpartner with hnone | ⟨body, body', hb, hb', hbody⟩
      · exact Or.inl hnone
      · exact Or.inr ⟨body, body', hb, hb', honward.spelled hbody⟩
    · -- The new partners have no bodies yet.
      rw [Partner, List.getElem?_append_right hge] at hpartner
      obtain ⟨_, hlast⟩ := List.getElem?_eq_some_iff.mp hpartner
      rw [List.getElem_singleton] at hlast
      subst hlast
      rw [h.length_eq] at hge
      rw [Rules.body?_reserve]
      exact Or.inl ⟨Rules.body?_eq_none hge, Rules.body?_eq_none (Nat.le_refl _)⟩

/-- The bodies of partners are written down side by side. -/
theorem define (h : Tandem partners rules rules') {handle handle' : Handle}
    (hpartner : Partner partners handle handle') (hnone : rules'.body? handle' = none)
    {body body' : Parser} (hbody : body.Spelled (Partner partners) rules' body') :
    Tandem partners (rules.define handle body) (rules'.define handle' body') := by
  obtain ⟨hin, -⟩ := List.getElem?_eq_some_iff.mp hpartner
  have hin' := h.lt_nextHandle handle' (List.mem_of_getElem? hpartner)
  -- What was written down is still there, for the handle had no body.
  have hkept : ∀ other p, rules'.body? other = some p →
      (rules'.define handle' body').body? other = some p := by
    intro other p hp
    by_cases hsame : handle' = other
    · subst hsame
      cases hnone.symm.trans hp
    · rw [Rules.body?_define_of_ne hsame, hp]
  refine ⟨?_, fun other hmem => ?_, h.nodup, fun other other' hother => ?_⟩
  · rw [Rules.nextHandle_define, h.length_eq]
  · rw [Rules.nextHandle_define]
    exact h.lt_nextHandle other hmem
  · by_cases hsame : handle = other
    · subst hsame
      cases hpartner.symm.trans hother
      rw [h.length_eq] at hin
      exact Or.inr ⟨body, body', Rules.body?_define_self hin, Rules.body?_define_self hin',
        hbody.mono (fun _ _ => id) hkept⟩
    · have hsame' : handle' ≠ other' := by
        rintro rfl
        exact hsame ((List.getElem?_inj hin h.nodup).mp (hpartner.trans hother.symm))
      rw [Rules.body?_define_of_ne hsame, Rules.body?_define_of_ne hsame']
      rcases h.bodies other other' hother with hnone | ⟨p, p', hp, hp', hspelled⟩
      · exact Or.inl hnone
      · exact Or.inr ⟨p, p', hp, hp', hspelled.mono (fun _ _ => id) hkept⟩

end Tandem

/-! ## Operators side by side -/

namespace Parser.Spelled

variable {same : Handle → Handle → Prop} {rules' : Rules} {p p' q q' : Parser} {ps ps' : List Parser}

/-- An operator that repeats nothing. -/
theorem unary (op : UnaryOp) (hmany : op ≠ .many) (hmany1 : op ≠ .many1)
    (hp : p.Spelled same rules' p') : (op.apply p).Spelled same rules' (op.apply p') := by
  cases op with
  | many => exact (hmany rfl).elim
  | many1 => exact (hmany1 rfl).elim
  | toEnd => exact .mapOutcome _ (.pair hp (.leaf _))
  | not => exact .not hp
  | peek | as value | describe expect | map f | mapOutcome f => exact .mapOutcome _ hp

theorem binary (op : BinaryOp) (hsepBy : op ≠ .sepBy) (hsepBy1 : op ≠ .sepBy1)
    (hp : p.Spelled same rules' p') (hq : q.Spelled same rules' q') :
    (op.apply p q).Spelled same rules' (op.apply p' q') := by
  cases op with
  | sepBy => exact (hsepBy rfl).elim
  | sepBy1 => exact (hsepBy1 rfl).elim
  | pair => exact .pair hp hq
  | or => exact .or hp hq
  | keepSecond | keepFirst | cons | snoc => exact .mapOutcome _ (.pair hp hq)
  | notFollowedBy => exact .mapOutcome _ (.pair hp (.not hq))
  | followedBy => exact .mapOutcome _ (.pair hp (.mapOutcome _ hq))

theorem seq (hps : List.Forall₂ (Spelled same rules') ps ps') :
    (seq ps).Spelled same rules' (seq ps') :=
  List.rel_foldl (fun _ _ hp _ _ hq => .mapOutcome _ (.pair hp hq)) (.leaf _) hps

theorem choice (hps : List.Forall₂ (Spelled same rules') ps ps') :
    (choice ps).Spelled same rules' (choice ps') := by
  cases hps with
  | nil => exact .leaf _
  | cons hp hrest => exact List.rel_foldl (fun _ _ hp _ _ hq => .or hp hq) hp hrest

end Parser.Spelled

/-- The parsers that have names are spelled out under the same names. -/
def Scope.Spelled (partners : List Handle) (rules' : Rules) : Scope → Scope → Prop :=
  List.Forall₂ fun x y => x.1 = y.1 ∧ x.2.Spelled (Partner partners) rules' y.2

namespace Scope.Spelled

variable {partners partners' : List Handle} {rules' rules'' : Rules} {scope scope' : Scope}

theorem onward (h : Scope.Spelled partners rules' scope scope')
    (honward : Onward partners partners' rules' rules'') :
    Scope.Spelled partners' rules'' scope scope' :=
  h.imp fun _ _ hx => ⟨hx.1, honward.spelled hx.2⟩

theorem given (h : Scope.Spelled partners rules' scope scope') {ps ps' : List Parser}
    (hps : List.Forall₂ (Parser.Spelled (Partner partners) rules') ps ps') (names : List String) :
    Scope.Spelled partners rules' (names.zip ps ++ scope) (names.zip ps' ++ scope') := by
  induction hps generalizing names with
  | nil => simpa using h
  | cons hp _ ih =>
    cases names with
    | nil => simpa using h
    | cons name names => exact .cons ⟨rfl, hp⟩ (ih names)

theorem lookup (h : Scope.Spelled partners rules' scope scope') {name : String} {p p' : Parser}
    (hp : scope.lookup name = some p) (hp' : scope'.lookup name = some p') :
    p.Spelled (Partner partners) rules' p' := by
  induction h with
  | nil => cases hp
  | @cons x y _ _ hx _ ih =>
    obtain ⟨xname, px⟩ := x
    obtain ⟨yname, py⟩ := y
    obtain ⟨rfl, hspelled⟩ := hx
    rw [List.lookup_cons] at hp hp'
    cases hname : name == xname with
    | true =>
      rw [hname] at hp hp'
      cases hp
      cases hp'
      exact hspelled
    | false =>
      rw [hname] at hp hp'
      exact ih hp hp'

end Scope.Spelled

/-! ## Building side by side -/

/-- Both sides have gone on in tandem, and with the partners that there are now, what they have
built is as said. -/
def GoneOn (partners : List Handle) (rules' rules₁ rules₂ : Rules) (R : List Handle → Prop) : Prop :=
  ∃ partners', Onward partners partners' rules' rules₂ ∧ Tandem partners' rules₁ rules₂ ∧ R partners'

section GoneOn

variable {partners : List Handle} {rules rules' rules₁ rules₂ rules₃ rules₄ : Rules}
  {R R' : List Handle → Prop}

theorem Tandem.goneOn (h : Tandem partners rules rules') (hR : R partners) :
    GoneOn partners rules' rules rules' R := ⟨partners, .refl _ _, h, hR⟩

theorem GoneOn.bind (h : GoneOn partners rules' rules₁ rules₂ R)
    (hlater : ∀ partners', Onward partners partners' rules' rules₂ → Tandem partners' rules₁ rules₂ →
      R partners' → GoneOn partners' rules₂ rules₃ rules₄ R') :
    GoneOn partners rules' rules₃ rules₄ R' := by
  obtain ⟨partners', honward, htandem, hR⟩ := h
  obtain ⟨partners'', honward', htandem', hR'⟩ := hlater partners' honward htandem hR
  exact ⟨partners'', honward.trans honward', htandem', hR'⟩

theorem GoneOn.imp (h : GoneOn partners rules' rules₁ rules₂ R)
    (hR : ∀ partners', Onward partners partners' rules' rules₂ → R partners' → R' partners') :
    GoneOn partners rules' rules₁ rules₂ R' := by
  obtain ⟨partners', honward, htandem, h⟩ := h
  exact ⟨partners', honward, htandem, hR partners' honward h⟩

/-- A repetition goes on with a handle of its own on the second side. -/
theorem Tandem.repetition (h : Tandem partners rules rules') {p p' : Parser}
    (hp : p.Spelled (Partner partners) rules' p') :
    let rest := rules'.nextHandle
    let rules'' := rules'.reserve.define rest (p'.repetitionBody rest)
    GoneOn partners rules' rules rules'' fun partners' =>
      p.many.Spelled (Partner partners') rules'' (.ref rest) := by
  intro rest rules''
  have hgrows : rules'.Grows rules'' := rules'.grows_reserve.define (Nat.le_refl _) _
  have honward : Onward partners partners rules' rules'' := ⟨List.prefix_refl _, hgrows⟩
  exact ⟨partners, honward, h.grow hgrows,
    .many (honward.spelled hp) (Rules.body?_define_self rules'.nextHandle_lt_reserve)⟩

/-- So do one item and then any number of others. -/
theorem Tandem.more (h : Tandem partners rules rules') {p p' q q' : Parser}
    (hp : p.Spelled (Partner partners) rules' p') (hq : q.Spelled (Partner partners) rules' q') :
    let rest := rules'.nextHandle
    let rules'' := rules'.reserve.define rest (q'.repetitionBody rest)
    GoneOn partners rules' rules rules'' fun partners' =>
      (p.cons q.many).Spelled (Partner partners') rules'' (p'.cons (.ref rest)) :=
  (h.repetition hq).imp fun _ honward => .cons (honward.spelled hp)

/-- A recursion goes on with two handles that are partners, from before its body is built. -/
theorem Tandem.recursion (h : Tandem partners rules rules') {body body' : Parser}
    (hbody : GoneOn (partners ++ [rules'.nextHandle]) rules'.reserve rules₁ rules₂ fun partners' =>
      body.Spelled (Partner partners') rules₂ body') :
    GoneOn partners rules' (rules₁.define rules.nextHandle body) (rules₂.define rules'.nextHandle body')
      fun partners' => Parser.Spelled (Partner partners') (rules₂.define rules'.nextHandle body')
        (.ref rules.nextHandle) (.ref rules'.nextHandle) := by
  obtain ⟨partners', honward, htandem, hspelled⟩ := hbody
  have hpartner := partner_of_prefix honward.partners h.partner_nextHandle
  have hnone := Rules.body?_nextHandle_eq_none honward.grows
  refine ⟨partners', ⟨(List.prefix_append _ _).trans honward.partners, ?_⟩,
    htandem.define hpartner hnone hspelled, .ref hpartner⟩
  exact (rules'.grows_reserve.trans honward.grows).define (Nat.le_refl _) body'

end GoneOn

namespace Grammar

variable {fuel : Nat}

mutual

/-- Side by side, what is built of a grammar with its repetitions written as recursions spells
out what is built of the grammar. -/
theorem build_in_tandem {partners : List Handle} {scope scope' : Scope}
    {rules rules' rules₁ rules₂ : Rules} {p q : Parser} (g : Grammar)
    (h : Tandem partners rules rules') (hscope : Scope.Spelled partners rules' scope scope')
    (hbuild : (g.build fuel scope).Leaves rules p rules₁)
    (hbuild' : (g.spelled.build fuel scope').Leaves rules' q rules₂) :
    GoneOn partners rules' rules₁ rules₂ fun partners' => p.Spelled (Partner partners') rules₂ q := by
  match g with
  | .leaf l =>
    rw [spelled] at hbuild'
    obtain ⟨rfl, rfl⟩ := leaves_leaf hbuild
    obtain ⟨rfl, rfl⟩ := leaves_leaf hbuild'
    exact h.goneOn (.leaf l)
  | .regexp w =>
    rw [spelled] at hbuild'
    obtain ⟨l, hl, rfl, rfl⟩ := leaves_regexp hbuild
    obtain ⟨l', hl', rfl, rfl⟩ := leaves_regexp hbuild'
    cases hl.symm.trans hl'
    exact h.goneOn (.leaf l)
  | .unary op g =>
    rw [spelled] at hbuild'
    obtain ⟨p, hp, rfl⟩ := leaves_unary hbuild
    by_cases hmany : op = .many
    · subst hmany
      obtain ⟨q, _, hq, rfl, rfl⟩ := leaves_repetition hbuild'
      exact (build_in_tandem g h hscope hp hq).bind fun _ _ htandem hspelled =>
        htandem.repetition hspelled
    by_cases hmany1 : op = .many1
    · subst hmany1
      obtain ⟨q, _, hq, rfl, rfl⟩ := leaves_repetition1 hbuild'
      exact (build_in_tandem g h hscope hp hq).bind fun _ _ htandem hspelled =>
        htandem.more hspelled hspelled
    rw [op.spelled_of_ne _ hmany hmany1] at hbuild'
    obtain ⟨q, hq, rfl⟩ := leaves_unary hbuild'
    exact (build_in_tandem g h hscope hp hq).imp fun _ _ => .unary op hmany hmany1
  | .binary op g g' =>
    rw [spelled] at hbuild'
    obtain ⟨p, _, p', hp, hp', rfl⟩ := leaves_binary hbuild
    have hboth {q q' : Parser} {rules₃ rules₄ : Rules}
        (hq : (g.spelled.build fuel scope').Leaves rules' q rules₃)
        (hq' : (g'.spelled.build fuel scope').Leaves rules₃ q' rules₄) :
        GoneOn partners rules' rules₁ rules₄ fun partners' =>
          p.Spelled (Partner partners') rules₄ q ∧ p'.Spelled (Partner partners') rules₄ q' := by
      refine (build_in_tandem g h hscope hp hq).bind fun _ honward htandem hspelled => ?_
      refine (build_in_tandem g' htandem (hscope.onward honward) hp' hq').imp fun _ honward' => ?_
      exact fun hspelled' => ⟨honward'.spelled hspelled, hspelled'⟩
    by_cases hsepBy1 : op = .sepBy1
    · subst hsepBy1
      obtain ⟨q, _, q', _, hq, hq', rfl, rfl⟩ := leaves_separated hbuild'
      refine (hboth hq hq').bind fun _ _ htandem hspelled => ?_
      exact htandem.more hspelled.1 (.keepSecond hspelled.2 hspelled.1)
    by_cases hsepBy : op = .sepBy
    · subst hsepBy
      obtain ⟨_, _, _, hmore, hnothing, rfl⟩ := leaves_binary hbuild'
      obtain ⟨rfl, rfl⟩ := leaves_leaf hnothing
      obtain ⟨q, _, q', _, hq, hq', rfl, rfl⟩ := leaves_separated hmore
      refine (hboth hq hq').bind fun _ _ htandem hspelled => ?_
      have hlists := htandem.more hspelled.1 (.keepSecond hspelled.2 hspelled.1)
      exact hlists.imp fun _ _ hmore => .or hmore (.leaf _)
    rw [op.spelled_of_ne _ _ hsepBy hsepBy1] at hbuild'
    obtain ⟨q, _, q', hq, hq', rfl⟩ := leaves_binary hbuild'
    exact (hboth hq hq').imp fun _ _ hspelled => .binary op hsepBy hsepBy1 hspelled.1 hspelled.2
  | .seq gs =>
    rw [spelled] at hbuild'
    obtain ⟨ps, hps, rfl⟩ := leaves_seq hbuild
    obtain ⟨qs, hqs, rfl⟩ := leaves_seq hbuild'
    exact (buildAll_in_tandem gs h hscope hps hqs).imp fun _ _ => .seq
  | .choice gs =>
    rw [spelled] at hbuild'
    obtain ⟨ps, hps, rfl⟩ := leaves_choice hbuild
    obtain ⟨qs, hqs, rfl⟩ := leaves_choice hbuild'
    exact (buildAll_in_tandem gs h hscope hps hqs).imp fun _ _ => .choice
  | .recursive name early g =>
    rw [spelled] at hbuild'
    obtain ⟨body, _, hbody, rfl, rfl⟩ := leaves_recursive hbuild
    obtain ⟨body', _, hbody', rfl, rfl⟩ := leaves_recursive hbuild'
    have hinner : Scope.Spelled (partners ++ [rules'.nextHandle]) rules'.reserve
        ((name, .ref rules.nextHandle) :: scope) ((name, .ref rules'.nextHandle) :: scope') :=
      .cons ⟨rfl, .ref h.partner_nextHandle⟩
        (hscope.onward ⟨List.prefix_append _ _, rules'.grows_reserve⟩)
    exact h.recursion (build_in_tandem g h.reserve hinner hbody hbody')
  | .ref name =>
    rw [spelled] at hbuild'
    obtain ⟨hp, rfl⟩ := leaves_ref hbuild
    obtain ⟨hq, rfl⟩ := leaves_ref hbuild'
    exact h.goneOn (hscope.lookup hp hq)
  | .given names gs body =>
    rw [spelled] at hbuild'
    obtain ⟨ps, _, hps, hp⟩ := leaves_given hbuild
    obtain ⟨qs, _, hqs, hq⟩ := leaves_given hbuild'
    refine (buildAll_in_tandem gs h hscope hps hqs).bind fun _ honward htandem hspelled => ?_
    exact build_in_tandem body htandem ((hscope.onward honward).given hspelled names) hp hq
  | .custom step =>
    rw [spelled] at hbuild'
    obtain ⟨rfl, rfl⟩ := leaves_custom hbuild
    obtain ⟨rfl, rfl⟩ := leaves_custom hbuild'
    exact h.goneOn (.custom step)

theorem buildAll_in_tandem {partners : List Handle} {scope scope' : Scope}
    {rules rules' rules₁ rules₂ : Rules} {ps qs : List Parser} (gs : List Grammar)
    (h : Tandem partners rules rules') (hscope : Scope.Spelled partners rules' scope scope')
    (hbuild : (buildAll fuel scope gs).Leaves rules ps rules₁)
    (hbuild' : (buildAll fuel scope' (spelledAll gs)).Leaves rules' qs rules₂) :
    GoneOn partners rules' rules₁ rules₂ fun partners' =>
      List.Forall₂ (Parser.Spelled (Partner partners') rules₂) ps qs := by
  match gs with
  | [] =>
    rw [spelledAll] at hbuild'
    obtain ⟨rfl, rfl⟩ := hbuild.of_pure
    obtain ⟨rfl, rfl⟩ := hbuild'.of_pure
    exact h.goneOn .nil
  | g :: gs =>
    rw [spelledAll] at hbuild'
    obtain ⟨p, _, ps, hp, hps, rfl⟩ := leaves_cons hbuild
    obtain ⟨q, _, qs, hq, hqs, rfl⟩ := leaves_cons hbuild'
    refine (build_in_tandem g h hscope hp hq).bind fun _ honward htandem hspelled => ?_
    refine (buildAll_in_tandem gs htandem (hscope.onward honward) hps hqs).imp fun _ honward' => ?_
    exact .cons (honward'.spelled hspelled)

end

end Grammar

end Backtrack
