import KaLang.Proofs.Scope.Nesting
import KaLang.Proofs.Syntax.Imports

/-!
What a walk records. A node that is recorded later is apart from one that is recorded earlier, or
it lies inside it and in a scope inside the other's scope (`ScopeTree.Layered`). Each part of a walk
keeps to the spans of its own nodes (`Walk.Confined`), so parts that are apart may follow each
other, and a node may be recorded ahead of what lies inside it.
-/

namespace KaLang

namespace Span

variable {a b c outer : Span}

theorem Inside.refl (a : Span) : a.Inside a := ⟨Nat.le_refl _, Nat.le_refl _⟩

theorem Inside.trans (ha : a.Inside b) (hb : b.Inside c) : a.Inside c :=
  ⟨Nat.le_trans hb.1 ha.1, Nat.le_trans ha.2 hb.2⟩

/-- What lies inside spans that are apart is apart. -/
theorem Apart.mono {inner other : Span} (hapart : a.Apart b) (hinner : inner.Inside a)
    (hother : other.Inside b) : inner.Apart other := by
  rcases hapart with hbefore | hbefore
  · exact .inl (Nat.lt_of_le_of_lt hinner.2 (Nat.lt_of_lt_of_le hbefore hother.1))
  · exact .inr (Nat.lt_of_le_of_lt hother.2 (Nat.lt_of_lt_of_le hbefore hinner.1))

/-- No offset is in two spans that are apart. -/
theorem Apart.not_covers {offset : Nat} (hapart : a.Apart b) (ha : a.coversOffset offset = true)
    (hb : b.coversOffset offset = true) : False := by
  simp only [coversOffset, Bool.and_eq_true, decide_eq_true_eq] at ha hb
  rcases hapart with hbefore | hbefore
  · exact absurd (Nat.le_trans hb.1 ha.2) (Nat.not_le_of_lt hbefore)
  · exact absurd (Nat.le_trans ha.1 hb.2) (Nat.not_le_of_lt hbefore)

end Span

/-! ### Layers -/

/-- How a node that is recorded later stands to one that is recorded earlier: apart from it, or
    inside it and in a scope inside the other's scope. -/
def ScopeTree.Layered (tree : ScopeTree) (later earlier : Span × ScopeId) : Prop :=
  later.1.Apart earlier.1 ∨ later.1.Inside earlier.1 ∧ earlier.2 ∈ tree.path later.2

/-- Whether a step neither records a node nor opens or closes a scope. -/
def Step.isSilent : Step → Bool
  | .visit _ | .enter _ | .exit => false
  | _ => true

/-- What has been recorded between two indexes, the latest first: nodes with good spans that lie
    inside some regions, in layers, each in a scope inside the one that is open before and after. -/
structure ScopeIndex.Recorded (good : Span → Prop) (regions : List Span)
    (before after : ScopeIndex) (entries : List (Span × ScopeId)) : Prop where
  history : after.history = entries ++ before.history
  current : after.tree.current = before.tree.current
  good : ∀ entry ∈ entries, good entry.1
  region : ∀ entry ∈ entries, ∃ region ∈ regions, entry.1.Inside region
  size : ∀ entry ∈ entries, entry.2 < after.tree.size
  scope : ∀ entry ∈ entries, before.tree.current ∈ after.tree.path entry.2
  layered : entries.Pairwise after.tree.Layered

/-- Whether steps record nothing but good spans inside some regions, in layers, wherever they are
    taken. -/
def Walk.Confined (good : Span → Prop) (regions : List Span) (steps : List Step) : Prop :=
  ∀ index : ScopeIndex, index.tree.WellFormed →
    ∃ entries, index.Recorded good regions (index.run steps) entries

namespace Walk.Confined

variable {good : Span → Prop} {regions others : List Span} {steps more : List Step} {span : Span}

theorem nil : Confined good [] [] := fun index _ =>
  ⟨[], rfl, rfl, by simp, by simp, by simp, by simp, .nil⟩

/-- Steps that keep to some regions keep to larger ones. -/
theorem widen (hsteps : Confined good regions steps)
    (hregions : ∀ region ∈ regions, ∃ other ∈ others, region.Inside other) :
    Confined good others steps := by
  intro index hwell
  obtain ⟨entries, hentries⟩ := hsteps index hwell
  refine ⟨entries, { hentries with region := fun entry hentry => ?_ }⟩
  obtain ⟨region, hregion, hinside⟩ := hentries.region entry hentry
  obtain ⟨other, hother, houter⟩ := hregions region hregion
  exact ⟨other, hother, hinside.trans houter⟩

theorem weaken {better : Span → Prop} (hsteps : Confined good regions steps)
    (hgood : ∀ span, good span → better span) : Confined better regions steps := by
  intro index hwell
  obtain ⟨entries, hentries⟩ := hsteps index hwell
  have hbetter : ∀ entry ∈ entries, better entry.1 := fun entry hentry =>
    hgood entry.1 (hentries.good entry hentry)
  exact ⟨entries, { hentries with good := hbetter }⟩

/-- Parts that keep to regions apart from each other may follow each other. -/
theorem append (hsteps : Confined good regions steps) (hmore : Confined good others more)
    (hapart : ∀ region ∈ regions, ∀ other ∈ others, region.Apart other) :
    Confined good (regions ++ others) (steps ++ more) := by
  intro index hwell
  obtain ⟨entries, hentries⟩ := hsteps index hwell
  have hmiddle := ScopeIndex.wellFormed_run hwell steps
  obtain ⟨later, hlater⟩ := hmore _ hmiddle
  have hgrows := ScopeIndex.grows_run hmiddle more
  have hpath : ∀ entry ∈ entries, ((index.run steps).run more).tree.path entry.2 =
      (index.run steps).tree.path entry.2 :=
    fun entry hentry => hgrows.path_eq entry.2 (hentries.size entry hentry)
  refine ⟨later ++ entries, ?_⟩
  rw [ScopeIndex.run_append]
  constructor
  case history => rw [hlater.history, hentries.history, List.append_assoc]
  case current => rw [hlater.current, hentries.current]
  case good => exact List.forall_mem_append.mpr ⟨hlater.good, hentries.good⟩
  case region =>
    refine List.forall_mem_append.mpr ⟨fun entry hentry => ?_, fun entry hentry => ?_⟩
    · obtain ⟨region, hregion, hinside⟩ := hlater.region entry hentry
      exact ⟨region, List.mem_append_right _ hregion, hinside⟩
    · obtain ⟨region, hregion, hinside⟩ := hentries.region entry hentry
      exact ⟨region, List.mem_append_left _ hregion, hinside⟩
  case size =>
    exact List.forall_mem_append.mpr ⟨hlater.size, fun entry hentry =>
      Nat.lt_of_lt_of_le (hentries.size entry hentry) hgrows.size_le⟩
  case scope =>
    refine List.forall_mem_append.mpr ⟨fun entry hentry => ?_, fun entry hentry => ?_⟩
    · rw [← hentries.current]
      exact hlater.scope entry hentry
    · rw [hpath entry hentry]
      exact hentries.scope entry hentry
  case layered =>
    refine List.pairwise_append.mpr ⟨hlater.layered, ?_, fun a ha b hb => .inl ?_⟩
    · refine hentries.layered.imp_of_mem fun ha _ hlayered => ?_
      exact hlayered.imp_right fun hinside => ⟨hinside.1, by rw [hpath _ ha]; exact hinside.2⟩
    · obtain ⟨region, hregion, hinside⟩ := hentries.region b hb
      obtain ⟨other, hother, houter⟩ := hlater.region a ha
      exact (hapart region hregion other hother).symm.mono houter hinside

/-- A step that records nothing and opens nothing changes nothing in what is recorded. -/
theorem silent {step : Step} (hsilent : step.isSilent = true)
    (hsteps : Confined good regions steps) : Confined good regions (step :: steps) := by
  have hhistory (index : ScopeIndex) : (index.step step).history = index.history := by
    cases step with
    | visit | enter | exit => cases hsilent
    | _ => rfl
  have hflat : step.isFlat = true := by
    cases step with
    | visit | enter | exit => cases hsilent
    | _ => rfl
  intro index hwell
  obtain ⟨entries, hentries⟩ := hsteps (index.step step) (ScopeIndex.wellFormed_step hwell step)
  have hcurrent : (index.step step).tree.current = index.tree.current := by
    rw [ScopeIndex.tree_step, ScopeTree.current_step_of_isFlat hflat]
  refine ⟨entries, { hentries with history := ?_, current := ?_, scope := ?_ }⟩
  · rw [ScopeIndex.run_cons, hentries.history, hhistory]
  · rw [ScopeIndex.run_cons, hentries.current, hcurrent]
  · rw [← hcurrent]
    exact hentries.scope

/-- A node may be recorded ahead of what lies inside it or apart from it. -/
theorem visit (hspan : good span) (hsteps : Confined good regions steps)
    (hregions : ∀ region ∈ regions, region.Inside span ∨ region.Apart span) :
    Confined good (span :: regions) (.visit span :: steps) := by
  intro index hwell
  obtain ⟨entries, hentries⟩ := hsteps (index.record span) hwell
  have hcurrent : index.tree.current < (index.run (.visit span :: steps)).tree.size :=
    Nat.lt_of_lt_of_le hwell.current_lt (ScopeIndex.grows_run hwell _).size_le
  have hafter := ScopeIndex.wellFormed_run hwell (.visit span :: steps)
  refine ⟨entries ++ [(span, index.tree.current)], ?_⟩
  constructor
  case history =>
    rw [List.append_assoc]
    exact hentries.history
  case current => exact hentries.current
  case good => exact List.forall_mem_append.mpr ⟨hentries.good, by simpa using hspan⟩
  case region =>
    refine List.forall_mem_append.mpr ⟨fun entry hentry => ?_, ?_⟩
    · obtain ⟨region, hregion, hinside⟩ := hentries.region entry hentry
      exact ⟨region, List.mem_cons_of_mem _ hregion, hinside⟩
    · simpa using .inl (Span.Inside.refl span)
  case size => exact List.forall_mem_append.mpr ⟨hentries.size, by simpa using hcurrent⟩
  case scope =>
    exact List.forall_mem_append.mpr ⟨hentries.scope,
      List.forall_mem_singleton.mpr (hafter.mem_path_self hcurrent)⟩
  case layered =>
    refine List.pairwise_append.mpr ⟨hentries.layered, List.pairwise_singleton _ _, ?_⟩
    intro entry hentry own hown
    obtain rfl := List.mem_singleton.mp hown
    obtain ⟨region, hregion, hinside⟩ := hentries.region entry hentry
    rcases hregions region hregion with hinner | hapart
    · exact .inr ⟨hinside.trans hinner, hentries.scope entry hentry⟩
    · exact .inl (hapart.mono hinside (.refl span))

/-- A node may be recorded ahead of all that lies inside it. -/
theorem around (hspan : good span) (hsteps : Confined good regions steps)
    (hregions : ∀ region ∈ regions, region.Inside span) :
    Confined good [span] (.visit span :: steps) := by
  refine (hsteps.visit hspan fun region hregion => .inl (hregions region hregion)).widen ?_
  refine List.forall_mem_cons.mpr ⟨⟨span, List.mem_cons_self, .refl span⟩, fun region hregion => ?_⟩
  exact ⟨span, List.mem_cons_self, hregions region hregion⟩

/-- What is recorded in a scope of its own is in a scope inside the one around it. -/
theorem enclosed {opening : Opening} (hsteps : Confined good regions steps) :
    Confined good regions (.enter opening :: steps ++ [.exit]) := by
  intro index hwell
  have hopen : (index.onTree fun tree => tree.enter opening.kind).tree.WellFormed :=
    ScopeTree.wellFormed_step hwell (.enter opening)
  obtain ⟨entries, hentries⟩ := hsteps _ hopen
  have hgrows : (index.tree.enter opening.kind).Grows _ := ScopeIndex.grows_run hopen steps
  have hinside := ScopeIndex.wellFormed_run hopen steps
  have hexit : index.run (.enter opening :: steps ++ [.exit]) =
      ((index.onTree fun tree => tree.enter opening.kind).run steps).exit := by
    rw [List.cons_append, ScopeIndex.run_cons, ScopeIndex.run_append]
    rfl
  rw [hexit]
  generalize (index.onTree fun tree => tree.enter opening.kind).run steps = inside at *
  -- The way outwards from what was recorded passes the opened scope, and so the one around it.
  have hpath : inside.tree.path index.tree.size =
      index.tree.size :: index.tree.path index.tree.current :=
    (hgrows.path_eq index.tree.size (Nat.lt_succ_self _)).trans
      (ScopeTree.path_enter_current index.tree opening.kind)
  have houter : index.tree.current ∈ inside.tree.path index.tree.size :=
    hpath ▸ List.mem_cons_of_mem _ (hwell.mem_path_self hwell.current_lt)
  have hexited (id : ScopeId) : inside.exit.tree.path id = inside.tree.path id :=
    ScopeTree.path_exit inside.tree id
  refine ⟨entries, ?_⟩
  constructor
  case history => exact hentries.history
  case current => exact hgrows.current_exit hentries.current
  case good => exact hentries.good
  case region => exact hentries.region
  case size => exact (ScopeTree.size_exit inside.tree) ▸ hentries.size
  case scope =>
    intro entry hentry
    rw [hexited]
    exact (hinside.path_suffix (hentries.size entry hentry) (hentries.scope entry hentry)).subset
      houter
  case layered =>
    refine hentries.layered.imp fun hlayered => ?_
    rwa [ScopeTree.Layered, hexited]

end Walk.Confined

end KaLang
