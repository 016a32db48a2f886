import RandomAccess.Execution.Fault

/-!
# Actions in place

An action changes a state bit by bit. It may stop midway with a fault, and then the changes made
before the fault stay; it has no result at all if one of its operations is out of range or a loop
of it does not end. Nothing about atomicity is built in: an action is atomic if it is proved to be.
-/

namespace RandomAccess

/-- Actions on a state: they give a value or a fault, and leave a state either way. -/
abbrev InPlace (σ : Type) := ExceptT Fault (StateT σ Option)

namespace InPlace

variable {σ α β : Type}

/-- The result of an action and the state that it leaves; nothing if it goes out of range. -/
def exec (action : InPlace σ α) (state : σ) : Option (Except Fault α × σ) :=
  StateT.run (ExceptT.run action) state

/-- Goes on only within the range of the next operation. -/
def demand (range : Prop) [Decidable range] : InPlace σ Unit :=
  liftM (if range then some () else none : Option Unit)

/-- A number that has to fit a machine word. -/
def word (number : Nat) : InPlace σ Nat := do
  demand (number < UInt64.size)
  return number

/-- Goes on only under a condition, and stops with a fault without it. -/
def ensure (condition : Prop) [Decidable condition] (fault : Fault) : InPlace σ Unit :=
  if condition then pure () else throw fault

/-- The value of a computation that does not touch the state. -/
def ofExcept : Except Fault α → InPlace σ α
  | .ok value => pure value
  | .error fault => throw fault

@[simp] theorem exec_pure (value : α) (state : σ) :
    (pure value : InPlace σ α).exec state = some (.ok value, state) := rfl

@[simp] theorem exec_get (state : σ) :
    (get : InPlace σ σ).exec state = some (.ok state, state) := rfl

@[simp] theorem exec_modify (change : σ → σ) (state : σ) :
    (modify change : InPlace σ PUnit).exec state = some (.ok ⟨⟩, change state) := rfl

@[simp] theorem exec_throw (fault : Fault) (state : σ) :
    (throw fault : InPlace σ α).exec state = some (.error fault, state) := rfl

@[simp] theorem exec_liftM (value : Option α) (state : σ) :
    (liftM value : InPlace σ α).exec state = value.map fun value => (.ok value, state) := by
  cases value <;> rfl

@[simp] theorem exec_ofExcept (result : Except Fault α) (state : σ) :
    (ofExcept result : InPlace σ α).exec state = some (result, state) := by
  cases result <;> rfl

/-- The second action runs on what the first one leaves, unless the first one stops. -/
@[simp] theorem exec_bind (first : InPlace σ α) (second : α → InPlace σ β) (state : σ) :
    (first >>= second).exec state =
      match first.exec state with
      | none => none
      | some (.ok value, middle) => (second value).exec middle
      | some (.error fault, middle) => some (.error fault, middle) := by
  simp only [exec, ExceptT.run_bind, StateT.run_bind]
  cases StateT.run (ExceptT.run first) state with
  | none => rfl
  | some result =>
    obtain ⟨value | fault, middle⟩ := result <;> rfl

/-- A fault goes to the handler together with the state that it was met in. -/
theorem exec_tryCatch (action : InPlace σ α) (handler : Fault → InPlace σ α) (state : σ) :
    (tryCatch action handler).exec state =
      match action.exec state with
      | none => none
      | some (.ok value, after) => some (.ok value, after)
      | some (.error fault, after) => (handler fault).exec after := by
  change StateT.run (ExceptT.run (ExceptT.tryCatch action handler)) state = _
  simp only [exec, ExceptT.run, ExceptT.tryCatch, ExceptT.mk, StateT.run_bind]
  cases StateT.run action state with
  | none => rfl
  | some result =>
    obtain ⟨value | fault, after⟩ := result <;> rfl

theorem exec_demand {range : Prop} [Decidable range] (h : range) (state : σ) :
    (demand range).exec state = some (.ok (), state) := by
  rw [demand, if_pos h, exec_liftM, Option.map_some]

theorem exec_word {number : Nat} (h : number < UInt64.size) (state : σ) :
    (word number).exec state = some (.ok number, state) := by
  simp only [word, exec_bind, exec_demand h, exec_pure]

theorem exec_ensure (condition : Prop) [Decidable condition] (fault : Fault) (state : σ) :
    (ensure condition fault).exec state =
      some (if condition then .ok () else .error fault, state) := by
  unfold ensure
  split <;> rfl

/-- The action changes nothing, whether it stops or not. -/
def ReadOnly (action : InPlace σ α) : Prop :=
  ∀ ⦃state result after⦄, action.exec state = some (result, after) → after = state

/-- The action meets no fault. -/
def Unfailing (action : InPlace σ α) : Prop :=
  ∀ ⦃state fault after⦄, action.exec state ≠ some (.error fault, after)

/-- A fault leaves the state as the action found it, and it has a cause in this very action. -/
def Atomic (action : InPlace σ α) : Prop :=
  ∀ ⦃state fault after⦄, action.exec state = some (.error fault, after) →
    after = state ∧ fault ≠ .notRunning

/-- A result of two actions in turn is one of the second, or a fault of the first. -/
theorem exec_bind_eq_some {first : InPlace σ α} {second : α → InPlace σ β} {state after : σ}
    {result : Except Fault β} (h : (first >>= second).exec state = some (result, after)) :
    (∃ value middle, first.exec state = some (.ok value, middle) ∧
        (second value).exec middle = some (result, after)) ∨
      ∃ fault, result = .error fault ∧ first.exec state = some (.error fault, after) := by
  rw [exec_bind] at h
  split at h
  · simp at h
  · next value middle he => exact Or.inl ⟨value, middle, he, h⟩
  · next fault middle he =>
    cases h
    exact Or.inr ⟨fault, rfl, he⟩

theorem readOnly_pure (value : α) : (pure value : InPlace σ α).ReadOnly := by
  intro state result after h
  cases h
  rfl

theorem readOnly_get : (get : InPlace σ σ).ReadOnly := by
  intro state result after h
  cases h
  rfl

theorem readOnly_liftM (value : Option α) : (liftM value : InPlace σ α).ReadOnly := by
  intro state result after h
  rw [exec_liftM, Option.map_eq_some_iff] at h
  obtain ⟨_, _, he⟩ := h
  cases he
  rfl

theorem readOnly_ofExcept (value : Except Fault α) :
    (ofExcept value : InPlace σ α).ReadOnly := by
  intro state result after h
  rw [exec_ofExcept] at h
  cases h
  rfl

theorem readOnly_ensure (condition : Prop) [Decidable condition] (fault : Fault) :
    (ensure condition fault : InPlace σ Unit).ReadOnly := by
  intro state result after h
  rw [exec_ensure] at h
  cases h
  rfl

theorem ReadOnly.bind {first : InPlace σ α} {second : α → InPlace σ β} (hf : first.ReadOnly)
    (hs : ∀ value, (second value).ReadOnly) : (first >>= second).ReadOnly := by
  intro state result after h
  rcases exec_bind_eq_some h with ⟨value, middle, hv, hr⟩ | ⟨fault, _, hv⟩
  · exact (hs value hr).trans (hf hv)
  · exact hf hv

theorem readOnly_demand (range : Prop) [Decidable range] :
    (demand range : InPlace σ Unit).ReadOnly :=
  readOnly_liftM _

theorem readOnly_word (number : Nat) : (word number : InPlace σ Nat).ReadOnly :=
  (readOnly_demand _).bind fun _ => readOnly_pure _

theorem unfailing_pure (value : α) : (pure value : InPlace σ α).Unfailing := by
  intro state fault after h
  cases h

theorem unfailing_get : (get : InPlace σ σ).Unfailing := by
  intro state fault after h
  cases h

theorem unfailing_modify (change : σ → σ) : (modify change : InPlace σ PUnit).Unfailing := by
  intro state fault after h
  cases h

theorem unfailing_liftM (value : Option α) : (liftM value : InPlace σ α).Unfailing := by
  intro state fault after h
  rw [exec_liftM, Option.map_eq_some_iff] at h
  obtain ⟨_, _, he⟩ := h
  cases he

theorem Unfailing.bind {first : InPlace σ α} {second : α → InPlace σ β} (hf : first.Unfailing)
    (hs : ∀ value, (second value).Unfailing) : (first >>= second).Unfailing := by
  intro state fault after h
  rcases exec_bind_eq_some h with ⟨value, middle, _, hr⟩ | ⟨_, _, hv⟩
  · exact hs value hr
  · exact hf hv

theorem unfailing_demand (range : Prop) [Decidable range] :
    (demand range : InPlace σ Unit).Unfailing :=
  unfailing_liftM _

theorem unfailing_word (number : Nat) : (word number : InPlace σ Nat).Unfailing :=
  (unfailing_demand _).bind fun _ => unfailing_pure _

theorem Unfailing.atomic {action : InPlace σ α} (h : action.Unfailing) : action.Atomic :=
  fun _ _ _ he => absurd he (@h _ _ _)

theorem atomic_ofExcept {value : Except Fault α} (h : value ≠ .error .notRunning) :
    (ofExcept value : InPlace σ α).Atomic := by
  intro state fault after he
  rw [exec_ofExcept] at he
  cases he
  exact ⟨rfl, fun hn => h (hn ▸ rfl)⟩

theorem atomic_ensure (condition : Prop) [Decidable condition] {fault : Fault}
    (h : fault ≠ .notRunning) : (ensure condition fault : InPlace σ Unit).Atomic := by
  unfold ensure
  split
  · exact (unfailing_pure ()).atomic
  · exact atomic_ofExcept fun he => h (Except.error.inj he)

/-- What is only looked at before an atomic action may fault as well. -/
theorem ReadOnly.bind_atomic {first : InPlace σ α} {second : α → InPlace σ β}
    (hr : first.ReadOnly) (hf : first.Atomic) (hs : ∀ value, (second value).Atomic) :
    (first >>= second).Atomic := by
  intro state fault after h
  rcases exec_bind_eq_some h with ⟨value, middle, hv, he⟩ | ⟨_, hfault, hv⟩
  · obtain rfl := hr hv
    exact hs value he
  · cases hfault
    exact hf hv

/-- After an atomic action anything may be changed that cannot fault any more. -/
theorem Atomic.bind_unfailing {first : InPlace σ α} {second : α → InPlace σ β}
    (hf : first.Atomic) (hs : ∀ value, (second value).Unfailing) : (first >>= second).Atomic := by
  intro state fault after h
  rcases exec_bind_eq_some h with ⟨value, middle, _, he⟩ | ⟨_, hfault, hv⟩
  · exact absurd he (@hs value _ _ _)
  · cases hfault
    exact hf hv

end InPlace

end RandomAccess
