import Mathlib.Data.List.Infix
import Mathlib.Logic.Relation
import ExactSpend.Signal

/-!
# Histories of signals

What has been done with signals and guards decides which of them are cancelled.
Every flag is made by one step, as an oldest ancestor or under the flag of
another signal, and it is raised by cancelling a signal that has it or by
dropping a guard of such a signal.  Both are read off the steps alone, so they
do not depend on which names are still in use.
-/

namespace ExactSpend.Switchboard

variable {b : Switchboard} {s t : Signal} {steps : List Step} {step : Step}
variable {flag parent child : ℕ} {above : Option ℕ}

/-! ## What a step does -/

/-- The flag that a step raises: that of a signal cancelled or of a guard
dropped. -/
def raises? (b : Switchboard) : Step → Option ℕ
  | .cancel name => (b.signals.lookup name).map (·.own)
  | .guard name guard =>
    (b.signals.lookup name).bind fun _ => (b.guards.lookup guard).map (·.own)
  | .dropGuard guard => (b.guards.lookup guard).map (·.own)
  | .create _ | .child _ _ | .copy _ _ | .drop _ => none

/-- For a step that makes a flag, the flag above the new one if there is one. -/
def makes? (b : Switchboard) : Step → Option (Option ℕ)
  | .create _ => some none
  | .child parent _ => (b.signals.lookup parent).map fun s => some s.own
  | .copy _ _ | .cancel _ | .guard _ _ | .dropGuard _ | .drop _ => none

/-- A signal is held under a name or by a guard. -/
def Held (b : Switchboard) (s : Signal) : Prop :=
  ∃ name, (name, s) ∈ b.signals ∨ (name, s) ∈ b.guards

theorem mem_of_lookup {bindings : List (String × Signal)} {name : String}
    (h : bindings.lookup name = some s) : (name, s) ∈ bindings := by
  obtain ⟨before, after, rfl, -⟩ := List.lookup_eq_some_iff.mp h
  exact List.mem_append_right before List.mem_cons_self

theorem held_of_lookup_signals {name : String}
    (h : b.signals.lookup name = some s) : b.Held s :=
  ⟨name, Or.inl (mem_of_lookup h)⟩

theorem flags_releaseGuard (b : Switchboard) (guard : String) :
    (b.releaseGuard guard).flags = b.flags := by
  unfold releaseGuard
  split <;> rfl

theorem signals_releaseGuard (b : Switchboard) (guard : String) :
    (b.releaseGuard guard).signals = b.signals := by
  unfold releaseGuard
  split <;> rfl

theorem raised_releaseGuard (b : Switchboard) (guard : String) :
    (b.releaseGuard guard).raised =
      ((b.guards.lookup guard).map (·.own)).toList ++ b.raised := by
  unfold releaseGuard
  split <;> rename_i h <;> rw [h] <;> rfl

theorem guards_releaseGuard_subset (b : Switchboard) (guard : String) :
    (b.releaseGuard guard).guards ⊆ b.guards := by
  unfold releaseGuard
  split
  · exact fun _ h => List.mem_of_mem_filter h
  · exact fun _ h => h

/-- A step that makes a flag makes the next one. -/
theorem flags_step (b : Switchboard) (step : Step) :
    (b.step step).flags = b.flags + (b.makes? step).toList.length := by
  cases step with
  | create name => rfl
  | child parent name =>
      cases h : b.signals.lookup parent <;> simp [Switchboard.step, makes?, h]
  | copy source name =>
      cases h : b.signals.lookup source <;>
        simp [Switchboard.step, makes?, h, bind]
  | cancel name =>
      cases h : b.signals.lookup name <;>
        simp [Switchboard.step, makes?, h, raise]
  | guard name guard =>
      cases h : b.signals.lookup name <;>
        simp [Switchboard.step, makes?, h, flags_releaseGuard]
  | dropGuard guard => exact b.flags_releaseGuard guard
  | drop name => rfl

/-- The raised flags are those raised before and the one that the step
raises. -/
theorem raised_step (b : Switchboard) (step : Step) :
    (b.step step).raised = (b.raises? step).toList ++ b.raised := by
  cases step with
  | create name => rfl
  | child parent name =>
      cases h : b.signals.lookup parent <;>
        simp [Switchboard.step, raises?, h, bind]
  | copy source name =>
      cases h : b.signals.lookup source <;>
        simp [Switchboard.step, raises?, h, bind]
  | cancel name =>
      cases h : b.signals.lookup name <;>
        simp [Switchboard.step, raises?, h, raise]
  | guard name guard =>
      cases h : b.signals.lookup name <;>
        simp [Switchboard.step, raises?, h, raised_releaseGuard]
  | dropGuard guard => exact b.raised_releaseGuard guard
  | drop name => rfl

theorem held_bind {name : String} (h : (b.bind name t).Held s) :
    s = t ∨ b.Held s := by
  obtain ⟨other, h | h⟩ := h
  · rcases List.mem_cons.mp h with heq | h
    · exact Or.inl (Prod.mk.inj heq).2
    · exact Or.inr ⟨other, Or.inl (List.mem_of_mem_filter h)⟩
  · exact Or.inr ⟨other, Or.inr h⟩

/-- A signal that is held after a step was held before, or the step made its
flag. -/
theorem held_step (h : (b.step step).Held s) :
    b.Held s ∨ b.makes? step = some none ∧ s = ⟨b.flags, []⟩ ∨
      ∃ t, b.Held t ∧ b.makes? step = some (some t.own) ∧
        s = ⟨b.flags, t.observed⟩ := by
  cases step with
  | create name =>
      rcases held_bind h with rfl | h
      · exact Or.inr (Or.inl ⟨rfl, rfl⟩)
      · exact Or.inl h
  | child parent name =>
      cases hlookup : b.signals.lookup parent with
      | none =>
          rw [Switchboard.step, hlookup] at h
          exact Or.inl h
      | some t =>
          rw [Switchboard.step, hlookup] at h
          rcases held_bind h with rfl | h
          · refine Or.inr (Or.inr ⟨t, held_of_lookup_signals hlookup, ?_, rfl⟩)
            rw [makes?, hlookup, Option.map_some]
          · exact Or.inl h
  | copy source name =>
      cases hlookup : b.signals.lookup source with
      | none =>
          rw [Switchboard.step, hlookup] at h
          exact Or.inl h
      | some t =>
          rw [Switchboard.step, hlookup] at h
          rcases held_bind h with rfl | h
          · exact Or.inl (held_of_lookup_signals hlookup)
          · exact Or.inl h
  | cancel name =>
      rw [Switchboard.step] at h
      split at h <;> exact Or.inl h
  | guard name guard =>
      cases hlookup : b.signals.lookup name with
      | none =>
          rw [Switchboard.step, hlookup] at h
          exact Or.inl h
      | some t =>
          rw [Switchboard.step, hlookup] at h
          obtain ⟨other, h | h⟩ := h
          · have hmem := List.mem_of_mem_filter h
            rw [signals_releaseGuard] at hmem
            exact Or.inl ⟨other, Or.inl hmem⟩
          · rcases List.mem_cons.mp h with heq | h
            · obtain ⟨-, rfl⟩ := Prod.mk.inj heq
              exact Or.inl (held_of_lookup_signals hlookup)
            · exact Or.inl ⟨other,
                Or.inr (b.guards_releaseGuard_subset guard h)⟩
  | dropGuard guard =>
      obtain ⟨other, h | h⟩ := h
      · rw [Switchboard.step, signals_releaseGuard] at h
        exact Or.inl ⟨other, Or.inl h⟩
      · exact Or.inl ⟨other, Or.inr (b.guards_releaseGuard_subset guard h)⟩
  | drop name =>
      obtain ⟨other, h | h⟩ := h
      · exact Or.inl ⟨other, Or.inl (List.mem_of_mem_filter h)⟩
      · exact Or.inl ⟨other, Or.inr h⟩

/-! ## What a history says -/

/-- All signals and guards after some steps from the beginning. -/
def after (steps : List Step) : Switchboard :=
  run {} steps

theorem after_concat (steps : List Step) (step : Step) :
    after (steps ++ [step]) = (after steps).step step := by
  rw [after, run, List.foldl_concat]
  rfl

/-- One of some steps makes a flag, under another one or as an oldest
ancestor. -/
def Makes (steps : List Step) (flag : ℕ) (above : Option ℕ) : Prop :=
  ∃ before step, before ++ [step] <+: steps ∧
    (after before).makes? step = some above ∧ (after before).flags = flag

/-- One of some steps raises a flag. -/
def Raises (steps : List Step) (flag : ℕ) : Prop :=
  ∃ before step, before ++ [step] <+: steps ∧
    (after before).raises? step = some flag

/-- A flag is made under another one. -/
def Parent (steps : List Step) (parent child : ℕ) : Prop :=
  Makes steps child (some parent)

/-- A flag is another one or one of its ancestors. -/
def Reaches (steps : List Step) : ℕ → ℕ → Prop :=
  Relation.ReflTransGen (Parent steps)

/-- What one of some steps does is done by the last one or by an earlier one. -/
theorem exists_step_concat {P : List Step → Step → Prop} :
    (∃ before other, before ++ [other] <+: steps ++ [step] ∧ P before other) ↔
      P steps step ∨ ∃ before other, before ++ [other] <+: steps ∧
        P before other := by
  simp only [List.prefix_concat_iff, List.append_singleton_inj]
  constructor
  · rintro ⟨before, other, ⟨rfl, rfl⟩ | hprefix, h⟩
    · exact Or.inl h
    · exact Or.inr ⟨before, other, hprefix, h⟩
  · rintro (h | ⟨before, other, hprefix, h⟩)
    · exact ⟨steps, step, Or.inl ⟨rfl, rfl⟩, h⟩
    · exact ⟨before, other, Or.inr hprefix, h⟩

theorem makes_concat : Makes (steps ++ [step]) flag above ↔
    ((after steps).makes? step = some above ∧ (after steps).flags = flag) ∨
      Makes steps flag above :=
  exists_step_concat

theorem raises_concat : Raises (steps ++ [step]) flag ↔
    (after steps).raises? step = some flag ∨ Raises steps flag :=
  exists_step_concat

theorem not_makes_nil : ¬Makes [] flag above := by
  rintro ⟨before, step, hprefix, -⟩
  simp at hprefix

theorem not_raises_nil : ¬Raises [] flag := by
  rintro ⟨before, step, hprefix, -⟩
  simp at hprefix

theorem not_held_nil : ¬(after []).Held s := by
  rintro ⟨name, h | h⟩ <;> exact List.not_mem_nil h

theorem Makes.lt (h : Makes steps flag above) : flag < (after steps).flags := by
  induction steps using List.reverseRecOn with
  | nil => exact absurd h not_makes_nil
  | append_singleton steps step ih =>
      rw [after_concat, flags_step]
      rcases makes_concat.mp h with ⟨hmakes, rfl⟩ | h
      · rw [hmakes]
        exact Nat.lt_succ_self _
      · exact Nat.lt_add_right _ (ih h)

/-- No two steps make the same flag, so a flag stands for the step that made
it. -/
theorem makes_once {before before' : List Step} {step step' : Step}
    {above above' : Option ℕ} (h : before ++ [step] <+: steps)
    (hmakes : (after before).makes? step = some above)
    (h' : before' ++ [step'] <+: steps)
    (hmakes' : (after before').makes? step' = some above')
    (hflags : (after before).flags = (after before').flags) :
    before = before' ∧ step = step' := by
  induction steps using List.reverseRecOn with
  | nil => simp at h
  | append_singleton steps last ih =>
      rw [List.prefix_concat_iff, List.append_singleton_inj] at h h'
      rcases h with ⟨rfl, rfl⟩ | h <;> rcases h' with ⟨rfl, rfl⟩ | h'
      · exact ⟨rfl, rfl⟩
      · have hlt : Makes before (after before').flags above' :=
          ⟨before', step', h', hmakes', rfl⟩
        exact absurd (hflags ▸ hlt.lt) (lt_irrefl _)
      · have hlt : Makes before' (after before).flags above :=
          ⟨before, step, h, hmakes, rfl⟩
        exact absurd (hflags ▸ hlt.lt) (lt_irrefl _)
      · exact ih h h'

theorem Makes.unique {above' : Option ℕ} (h : Makes steps flag above)
    (h' : Makes steps flag above') : above = above' := by
  obtain ⟨before, step, hprefix, hmakes, hflag⟩ := h
  obtain ⟨before', step', hprefix', hmakes', hflag'⟩ := h'
  obtain ⟨rfl, rfl⟩ :=
    makes_once hprefix hmakes hprefix' hmakes' (hflag.trans hflag'.symm)
  exact Option.some.inj (hmakes.symm.trans hmakes')

theorem exists_makes_of_held (h : (after steps).Held s) : ∃ above,
    Makes steps s.own above := by
  induction steps using List.reverseRecOn generalizing s with
  | nil => exact absurd h not_held_nil
  | append_singleton steps step ih =>
      rw [after_concat] at h
      rcases held_step h with h | ⟨hmakes, rfl⟩ | ⟨t, -, hmakes, rfl⟩
      · obtain ⟨above, h⟩ := ih h
        exact ⟨above, makes_concat.mpr (Or.inr h)⟩
      · exact ⟨none, makes_concat.mpr (Or.inl ⟨hmakes, rfl⟩)⟩
      · exact ⟨some t.own, makes_concat.mpr (Or.inl ⟨hmakes, rfl⟩)⟩

theorem own_lt_of_held (h : (after steps).Held s) :
    s.own < (after steps).flags := by
  obtain ⟨above, h⟩ := exists_makes_of_held h
  exact h.lt

/-- A flag is older than those made under it. -/
theorem Parent.lt (h : Parent steps parent child) : parent < child := by
  obtain ⟨before, step, -, hmakes, rfl⟩ := h
  cases step with
  | child name other =>
      obtain ⟨s, hlookup, hown⟩ := Option.map_eq_some_iff.mp hmakes
      rw [← Option.some.inj hown]
      exact own_lt_of_held (held_of_lookup_signals hlookup)
  | _ => simp [makes?] at hmakes

theorem Parent.concat (h : Parent steps parent child) (step : Step) :
    Parent (steps ++ [step]) parent child :=
  makes_concat.mpr (Or.inr h)

/-- A step adds no ancestor to a flag that was made before. -/
theorem reaches_concat_of_lt (hlt : child < (after steps).flags) :
    Reaches (steps ++ [step]) flag child ↔ Reaches steps flag child := by
  constructor
  · intro h
    induction h with
    | refl => exact .refl
    | tail _ hparent ih =>
        rcases makes_concat.mp hparent with ⟨-, rfl⟩ | hparent
        · exact absurd hlt (lt_irrefl _)
        · exact (ih (Nat.lt_trans (Parent.lt hparent) hlt)).tail hparent
  · exact Relation.ReflTransGen.mono
      (fun _ _ h => Parent.concat h step) flag child

/-- The ancestors of the flag that a step makes are those of the flag above
it. -/
theorem reaches_concat_flags :
    Reaches (steps ++ [step]) flag (after steps).flags ↔
    flag = (after steps).flags ∨
      ∃ parent, (after steps).makes? step = some (some parent) ∧
        Reaches (steps ++ [step]) flag parent := by
  constructor
  · intro h
    rcases h.cases_tail with heq | ⟨parent, h, hparent⟩
    · exact Or.inl heq.symm
    · rcases makes_concat.mp hparent with ⟨hmakes, -⟩ | hparent
      · exact Or.inr ⟨parent, hmakes, h⟩
      · exact absurd hparent.lt (lt_irrefl _)
  · rintro (rfl | ⟨parent, hmakes, h⟩)
    · exact .refl
    · exact h.tail (makes_concat.mpr (Or.inl ⟨hmakes, rfl⟩))

/-- A signal observes its own flag and the ancestors of that flag. -/
theorem mem_observed_iff (h : (after steps).Held s) :
    flag ∈ s.observed ↔ Reaches steps flag s.own := by
  induction steps using List.reverseRecOn generalizing s with
  | nil => exact absurd h not_held_nil
  | append_singleton steps step ih =>
      rw [after_concat] at h
      rcases held_step h with h | ⟨hmakes, rfl⟩ | ⟨t, ht, hmakes, rfl⟩
      · rw [ih h, reaches_concat_of_lt (own_lt_of_held h)]
      · rw [reaches_concat_flags, hmakes]
        simp [Signal.observed]
      · rw [reaches_concat_flags, hmakes, Signal.observed, List.mem_cons, ih ht]
        simp [reaches_concat_of_lt (own_lt_of_held ht)]

theorem mem_raised_iff : flag ∈ (after steps).raised ↔ Raises steps flag := by
  induction steps using List.reverseRecOn with
  | nil => exact iff_of_false List.not_mem_nil not_raises_nil
  | append_singleton steps step ih =>
      rw [after_concat, raised_step, List.mem_append, Option.mem_toList, ih,
        raises_concat]

theorem isCancelled_iff : b.isCancelled s = true ↔
    ∃ flag ∈ s.observed, flag ∈ b.raised := by
  simp [isCancelled]

theorem isCancelled_after_iff (h : (after steps).Held s) :
    (after steps).isCancelled s = true ↔
    ∃ flag, Reaches steps flag s.own ∧ Raises steps flag := by
  simp only [isCancelled_iff, mem_observed_iff h, mem_raised_iff]

/-- What has been cancelled stays so. -/
theorem isCancelled_append (more : List Step)
    (h : (after steps).isCancelled s = true) :
    (after (steps ++ more)).isCancelled s = true := by
  induction more using List.reverseRecOn with
  | nil => rwa [List.append_nil]
  | append_singleton more step ih =>
      obtain ⟨flag, hmem, hraised⟩ := isCancelled_iff.mp ih
      rw [← List.append_assoc, after_concat, isCancelled_iff, raised_step]
      exact ⟨flag, hmem, List.mem_append_right _ hraised⟩

/-- A step cancels the signals that observe the flag it raises, and no
others. -/
theorem isCancelled_concat_iff (h : (after steps).Held s) :
    (after (steps ++ [step])).isCancelled s = true ↔
      (after steps).isCancelled s = true ∨
        ∃ flag, (after steps).raises? step = some flag ∧
          Reaches steps flag s.own := by
  simp only [after_concat, isCancelled_iff, raised_step, List.mem_append,
    Option.mem_toList, mem_observed_iff h]
  constructor
  · rintro ⟨flag, hreaches, hraises | hraised⟩
    · exact Or.inr ⟨flag, hraises, hreaches⟩
    · exact Or.inl ⟨flag, hreaches, hraised⟩
  · rintro (⟨flag, hreaches, hraised⟩ | ⟨flag, hraises, hreaches⟩)
    · exact ⟨flag, hreaches, Or.inr hraised⟩
    · exact ⟨flag, hreaches, Or.inl hraises⟩

/-! ## Kin -/

theorem reaches_le (h : Reaches steps parent child) : parent ≤ child := by
  induction h with
  | refl => exact le_rfl
  | tail _ hparent ih => exact ih.trans (Parent.lt hparent).le

theorem not_reaches_of_descendant (h : Reaches steps parent child)
    (hne : parent ≠ child) :
    ¬Reaches steps child parent :=
  fun hback => hne (le_antisymm (reaches_le h) (reaches_le hback))

theorem not_reaches_of_sibling {sibling : ℕ} (h : Parent steps parent child)
    (h' : Parent steps parent sibling) (hne : child ≠ sibling) :
    ¬Reaches steps child sibling := by
  intro hreaches
  rcases hreaches.cases_tail with heq | ⟨other, hreaches, hother⟩
  · exact hne heq.symm
  · obtain rfl : other = parent := Option.some.inj (Makes.unique hother h')
    exact absurd (reaches_le hreaches) (not_le.mpr h.lt)

/-! ## Names -/

theorem lookup_create (b : Switchboard) (name : String) :
    (b.step (.create name)).signals.lookup name = some ⟨b.flags, []⟩ := by
  simp [Switchboard.step, bind]

theorem lookup_child {source name : String}
    (h : b.signals.lookup source = some t) :
    (b.step (.child source name)).signals.lookup name =
      some ⟨b.flags, t.observed⟩ := by
  simp [Switchboard.step, bind, h]

theorem lookup_copy {source name : String}
    (h : b.signals.lookup source = some t) :
    (b.step (.copy source name)).signals.lookup name = some t := by
  simp [Switchboard.step, bind, h]

theorem lookup_guard {name guard : String}
    (h : b.signals.lookup name = some t) :
    (b.step (.guard name guard)).guards.lookup guard = some t := by
  simp [Switchboard.step, h]

theorem makes_create (steps : List Step) (name : String) :
    Makes (steps ++ [.create name]) (after steps).flags none :=
  makes_concat.mpr (Or.inl ⟨rfl, rfl⟩)

theorem parent_child {source name : String}
    (h : (after steps).signals.lookup source = some t) :
    Parent (steps ++ [.child source name]) t.own (after steps).flags := by
  refine makes_concat.mpr (Or.inl ⟨?_, rfl⟩)
  rw [makes?, h, Option.map_some]

/-! ## Any sequence of steps -/

/-- Whatever is done with signals and guards, each signal is cancelled exactly
if its flag or the flag of one of its ancestors has been raised at some time.
So a cancelled signal stays cancelled, and with it its copies and all below it;
a step that raises a flag cancels those that observe it and leaves all others as
they were, and a flag is not observed by the signals above it or beside it.  To
drop a signal changes nothing.  A flag stands for the one step that made it: a
new signal has a new flag, a child one under that of its parent, and a copy or a
guard has the same. -/
theorem isCancelled_iff_raised (steps : List Step) :
    (∀ s, (after steps).Held s →
      (∃ above, Makes steps s.own above) ∧
        ((after steps).isCancelled s = true ↔
          ∃ flag, Reaches steps flag s.own ∧ Raises steps flag) ∧
        (∀ more, (after steps).isCancelled s = true →
          (after (steps ++ more)).isCancelled s = true) ∧
        (∀ t, (after steps).Held t → Reaches steps t.own s.own →
          (after steps).isCancelled t = true →
            (after steps).isCancelled s = true) ∧
        (∀ step, (after (steps ++ [step])).isCancelled s = true ↔
          (after steps).isCancelled s = true ∨
            ∃ flag, (after steps).raises? step = some flag ∧
              Reaches steps flag s.own) ∧
        ∀ name, (after (steps ++ [.drop name])).isCancelled s =
          (after steps).isCancelled s) ∧
      (∀ parent child, Reaches steps parent child → parent ≠ child →
        ¬Reaches steps child parent) ∧
      (∀ parent child sibling,
        Parent steps parent child → Parent steps parent sibling →
        child ≠ sibling → ¬Reaches steps child sibling) ∧
      (∀ before before' step step' above above',
        before ++ [step] <+: steps → (after before).makes? step = some above →
        before' ++ [step'] <+: steps →
        (after before').makes? step' = some above' →
        (after before).flags = (after before').flags →
          before = before' ∧ step = step') ∧
      (∀ name, ∃ s,
        (after (steps ++ [.create name])).signals.lookup name = some s ∧
          Makes (steps ++ [.create name]) s.own none) ∧
      ∀ source name t, (after steps).signals.lookup source = some t →
        (∃ s,
          (after (steps ++ [.child source name])).signals.lookup name = some s ∧
            Parent (steps ++ [.child source name]) t.own s.own) ∧
        (after (steps ++ [.copy source name])).signals.lookup name = some t ∧
        (after (steps ++ [.guard source name])).guards.lookup name =
          some t := by
  refine ⟨fun s hs => ⟨exists_makes_of_held hs, isCancelled_after_iff hs,
    ?_, ?_, ?_, ?_⟩, ?_, ?_, ?_, ?_, ?_⟩
  · exact fun more => isCancelled_append more
  · intro t ht hreaches hcancelled
    obtain ⟨flag, hflag, hraises⟩ := (isCancelled_after_iff ht).mp hcancelled
    exact (isCancelled_after_iff hs).mpr ⟨flag, hflag.trans hreaches, hraises⟩
  · exact fun step => isCancelled_concat_iff hs
  · intro name
    rw [after_concat]
    rfl
  · exact fun _ _ => not_reaches_of_descendant
  · exact fun _ _ _ => not_reaches_of_sibling
  · exact fun _ _ _ _ _ _ => makes_once
  · intro name
    refine ⟨⟨(after steps).flags, []⟩, ?_, makes_create steps name⟩
    rw [after_concat]
    exact lookup_create _ name
  · intro source name t ht
    simp only [after_concat]
    exact ⟨⟨_, lookup_child ht, parent_child ht⟩, lookup_copy ht,
      lookup_guard ht⟩

/-- The guard of a copy of the child cancels the child, but not the parent. -/
example : (({} : Switchboard).trace [.create "parent", .child "parent" "child",
    .copy "child" "copy", .guard "copy" "guard", .dropGuard "guard"]).getLast? =
      some [("child", true), ("parent", false)] := by
  decide

end ExactSpend.Switchboard
