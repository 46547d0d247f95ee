import Mathlib

/-!
# Programs with state and exceptions

Rules for `EStateM` programs. `Retries e p q`: `p` either does what `q` does, or throws `e` without
having changed anything. The last rules are about `Except` programs.
-/
namespace Babeltrace.Program

variable {ε σ α β : Type}

@[simp] theorem bind_apply (p : EStateM ε σ α) (f : α → EStateM ε σ β) (s : σ) :
    (p >>= f) s = match p s with
      | .ok a s' => f a s'
      | .error e s' => .error e s' := rfl

@[simp] theorem map_apply (f : α → β) (p : EStateM ε σ α) (s : σ) :
    (f <$> p) s = match p s with
      | .ok a s' => .ok (f a) s'
      | .error e s' => .error e s' := rfl

@[simp] theorem pure_apply (a : α) (s : σ) : (pure a : EStateM ε σ α) s = .ok a s := rfl

@[simp] theorem get_apply (s : σ) : (get : EStateM ε σ σ) s = .ok s s := rfl

@[simp] theorem set_apply (s' s : σ) : (set s' : EStateM ε σ PUnit) s = .ok ⟨⟩ s' := rfl

@[simp] theorem modify_apply (f : σ → σ) (s : σ) :
    (modify f : EStateM ε σ PUnit) s = .ok ⟨⟩ (f s) := rfl

@[simp] theorem throw_apply (e : ε) (s : σ) : (throw e : EStateM ε σ α) s = .error e s := rfl

theorem get_bind_apply (f : σ → EStateM ε σ α) (s : σ) : (get >>= f) s = f s s := rfl

@[simp] theorem seqRight_apply (p : EStateM ε σ α) (q : EStateM ε σ β) (s : σ) :
    (p *> q) s = match p s with
      | .ok _ s' => q s'
      | .error e s' => .error e s' := rfl

variable {e : ε} {p q : EStateM ε σ α} {f : α → EStateM ε σ β} {s s' : σ} {a : α}
  {Q Q' : α → σ → Prop} {c : Prop} [Decidable c]

theorem bind_eq_ok {s s'' : σ} {b : β} (h : (p >>= f) s = .ok b s'') :
    ∃ a s', p s = .ok a s' ∧ f a s' = .ok b s'' := by
  rw [bind_apply] at h
  cases hp : p s with
  | ok a s' => exact ⟨a, s', rfl, by rwa [hp] at h⟩
  | error e s' =>
    rw [hp] at h
    cases h

def Retries (e : ε) (p q : EStateM ε σ α) : Prop := ∀ s, p s = q s ∨ p s = .error e s

theorem Retries.refl (e : ε) (p : EStateM ε σ α) : Retries e p p := fun _ => .inl rfl

theorem Retries.bind (h : Retries e p q) (f : α → EStateM ε σ β) :
    Retries e (p >>= f) (q >>= f) := by
  intro s
  obtain hs | hs := h s
  · exact .inl (by simp [hs])
  · exact .inr (by simp [hs])

theorem Retries.read_bind {x : EStateM ε σ α} {p q : α → EStateM ε σ β}
    (hx : ∀ {s a s'}, x s = .ok a s' → s' = s) (h : ∀ a, Retries e (p a) (q a)) :
    Retries e (x >>= p) (x >>= q) := by
  intro s
  simp only [bind_apply]
  cases hs : x s with
  | error e' s' => exact .inl rfl
  | ok a s' =>
    rw [hx hs]
    exact h a s

theorem Retries.get_bind {p q : σ → EStateM ε σ α} (h : ∀ s, Retries e (p s) (q s)) :
    Retries e (get >>= p) (get >>= q) := fun s => h s s

theorem Retries.ite {p q p' q' : EStateM ε σ α} (h : Retries e p q) (h' : Retries e p' q') :
    Retries e (if c then p else p') (if c then q else q') := by
  split
  · exact h
  · exact h'

/-- `p` doesn't throw `e`. -/
def Never (e : ε) (p : EStateM ε σ α) : Prop := ∀ s s', p s ≠ .error e s'

theorem Never.bind (h : Never e p) (hf : ∀ a, Never e (f a)) : Never e (p >>= f) := by
  intro s s'
  simp only [bind_apply]
  cases hs : p s with
  | ok a s₁ => exact hf a s₁ s'
  | error e' s₁ =>
    intro he
    cases he
    exact h s s' hs

theorem Never.ite (h : Never e p) (h' : Never e q) : Never e (if c then p else q) := by
  split
  · exact h
  · exact h'

theorem Never.get_bind {f : σ → EStateM ε σ α} (h : ∀ s, Never e (f s)) :
    Never e (get >>= f) := fun s => h s s

theorem Never.modify_bind (g : σ → σ) {f : PUnit → EStateM ε σ α} (h : Never e (f ⟨⟩)) :
    Never e (modify g >>= f) := fun s => h (g s)

theorem Never.pure (e : ε) (a : α) : Never e (pure a : EStateM ε σ α) := by
  intro s s' h
  cases h

def Moves (R : σ → σ → Prop) (p : EStateM ε σ α) : Prop :=
  ∀ s, match p s with
    | .ok _ s' => R s s'
    | .error _ s' => R s s'

section
variable {R : σ → σ → Prop}

theorem Moves.ok (h : Moves R p) (hp : p s = .ok a s') : R s s' := by
  have hs := h s
  rwa [hp] at hs

theorem Moves.error (h : Moves R p) (hp : p s = .error e s') : R s s' := by
  have hs := h s
  rwa [hp] at hs

theorem Moves.mono {R' : σ → σ → Prop} (h : Moves R p) (hR : ∀ {s s'}, R s s' → R' s s') :
    Moves R' p := by
  intro s
  cases hp : p s with
  | ok a s' => exact hR (h.ok hp)
  | error e s' => exact hR (h.error hp)

theorem Moves.bind (trans : ∀ {s s' s''}, R s s' → R s' s'' → R s s'') (h : Moves R p)
    (hf : ∀ a, Moves R (f a)) : Moves R (p >>= f) := by
  intro s
  simp only [bind_apply]
  cases hp : p s with
  | error e s' => exact h.error hp
  | ok a s' =>
    cases hq : f a s' with
    | ok b s'' => simpa only [hq] using trans (h.ok hp) ((hf a).ok hq)
    | error e s'' => simpa only [hq] using trans (h.ok hp) ((hf a).error hq)

theorem Moves.get_bind {f : σ → EStateM ε σ α} (h : ∀ s, Moves R (f s)) :
    Moves R (get >>= f) := fun s => h s s

theorem Moves.ite (h : Moves R p) (h' : Moves R q) : Moves R (if c then p else q) := by
  split
  · exact h
  · exact h'

theorem Moves.pure (refl : ∀ s, R s s) (a : α) : Moves R (pure a : EStateM ε σ α) := refl

end

/-- A result satisfies `Q` with its state, and the state in which an exception leaves `p` satisfies
`E`. -/
def Triple (P : σ → Prop) (p : EStateM ε σ α) (Q : α → σ → Prop) (E : σ → Prop) : Prop :=
  ∀ s, P s → match p s with
    | .ok a s' => Q a s'
    | .error _ s' => E s'

section
variable {P P' : σ → Prop} {E : σ → Prop}

theorem Triple.ok (h : Triple P p Q E) (hs : P s) (hp : p s = .ok a s') : Q a s' := by
  have h' := h s hs
  rwa [hp] at h'

theorem Triple.error (h : Triple P p Q E) (hs : P s) (hp : p s = .error e s') : E s' := by
  have h' := h s hs
  rwa [hp] at h'

theorem Triple.bind {Q' : β → σ → Prop} (h : Triple P p Q E) (hf : ∀ a, Triple (Q a) (f a) Q' E) :
    Triple P (p >>= f) Q' E := by
  intro s hs
  simp only [bind_apply]
  cases hp : p s with
  | error e s' => exact h.error hs hp
  | ok a s' => exact hf a s' (h.ok hs hp)

theorem Triple.get_bind {f : σ → EStateM ε σ α} (h : ∀ s₀, P s₀ → Triple (· = s₀) (f s₀) Q E) :
    Triple P (get >>= f) Q E :=
  fun s hs => h s hs s rfl

theorem Triple.ite (h : c → Triple P p Q E) (h' : ¬ c → Triple P q Q E) :
    Triple P (if c then p else q) Q E := by
  split
  · exact h ‹_›
  · exact h' ‹_›

theorem Triple.pure (h : ∀ s, P s → Q a s) : Triple P (pure a : EStateM ε σ α) Q E := h

theorem Triple.weaken (h : Triple P p Q E) (hP : ∀ s, P' s → P s) :
    Triple P' p Q E := fun s hs => h s (hP s hs)

theorem Triple.mono (h : Triple P p Q E) (hQ : ∀ a s, Q a s → Q' a s) : Triple P p Q' E := by
  intro s hs
  cases hp : p s with
  | ok a s' => exact hQ a s' (h.ok hs hp)
  | error e s' => exact h.error hs hp

end

def Wp (E : ε → Prop) (p : EStateM ε σ α) (s : σ) (Q : α → σ → Prop) : Prop :=
  match p s with
  | .ok a s' => Q a s'
  | .error e _ => E e

section
variable {E : ε → Prop}

theorem Wp.ok (h : Wp E p s Q) (hp : p s = .ok a s') : Q a s' := by
  rwa [Wp, hp] at h

theorem Wp.error (h : Wp E p s Q) (hp : p s = .error e s') : E e := by
  rwa [Wp, hp] at h

theorem Wp.of_eq {t : σ} (hp : p s = .ok a t) (h : Q a t) : Wp E p s Q := by
  rwa [Wp, hp]

theorem Wp.of_apply_eq {q : EStateM ε σ α} (hpq : p s = q s') (h : Wp E q s' Q) : Wp E p s Q := by
  simpa only [Wp, hpq] using h

theorem Wp.mono (h : Wp E p s Q) (hQ : ∀ a s', Q a s' → Q' a s') : Wp E p s Q' := by
  rw [Wp] at h ⊢
  split at h
  · exact hQ _ _ h
  · exact h

theorem Wp.imp (h : Wp E p s Q) (hok : ∀ a s', p s = .ok a s' → Q a s' → Q' a s') :
    Wp E p s Q' := by
  cases hp : p s with
  | ok a s' => exact .of_eq hp (hok a s' hp (h.ok hp))
  | error e s' =>
    rw [Wp, hp]
    exact h.error hp

theorem Wp.bind {Q' : β → σ → Prop} (h : Wp E p s Q) (hf : ∀ a s', Q a s' → Wp E (f a) s' Q') :
    Wp E (p >>= f) s Q' := by
  rw [Wp, bind_apply]
  cases hp : p s with
  | error e s' => exact h.error hp
  | ok a s' => exact hf a s' (h.ok hp)

end

/-- `p` gives a result if and only if `C` holds, and it otherwise throws what `E` tells. -/
def Decides (E : ε → Prop) (C : Prop) (p : EStateM ε σ α) (s : σ) (Q : α → σ → Prop) : Prop :=
  match p s with
  | .ok a s' => C ∧ Q a s'
  | .error e _ => ¬C ∧ E e

section
variable {E : ε → Prop} {C C' : Prop}

theorem Decides.of_ok (hp : p s = .ok a s') (hC : C) (h : Q a s') : Decides E C p s Q := by
  rw [Decides, hp]
  exact ⟨hC, h⟩

theorem Decides.ok (h : Decides E C p s Q) (hp : p s = .ok a s') : C ∧ Q a s' := by
  rwa [Decides, hp] at h

theorem Decides.error (h : Decides E C p s Q) (hp : p s = .error e s') : ¬C ∧ E e := by
  rwa [Decides, hp] at h

theorem Decides.wp (h : Decides E C p s Q) : Wp E p s Q := by
  rw [Wp]
  cases hp : p s with
  | ok a s' => exact (h.ok hp).2
  | error e s' => exact (h.error hp).2

theorem Decides.imp (h : Decides E C p s Q) (hC : C ↔ C')
    (hok : ∀ a s', p s = .ok a s' → Q a s' → Q' a s') : Decides E C' p s Q' := by
  rw [Decides]
  cases hp : p s with
  | ok a s' => exact ⟨hC.mp (h.ok hp).1, hok a s' hp (h.ok hp).2⟩
  | error e s' => exact ⟨hC.not.mp (h.error hp).1, (h.error hp).2⟩

theorem Decides.bind {Q' : β → σ → Prop} (h : Decides E C p s Q)
    (hf : ∀ a s', Q a s' → Decides E C' (f a) s' Q') : Decides E (C ∧ C') (p >>= f) s Q' := by
  rw [Decides, bind_apply]
  cases hp : p s with
  | error e s' => exact ⟨fun hC => (h.error hp).1 hC.1, (h.error hp).2⟩
  | ok a s' =>
    have hnext := hf a s' (h.ok hp).2
    simp only
    cases hp' : f a s' with
    | error e s'' => exact ⟨fun hC => (hnext.error hp').1 hC.2, (hnext.error hp').2⟩
    | ok b s'' => exact ⟨⟨(h.ok hp).1, (hnext.ok hp').1⟩, (hnext.ok hp').2⟩

end

end Babeltrace.Program

namespace Babeltrace.Excepts

theorem bind_eq_ok {ε α β : Type} {x : Except ε α} {f : α → Except ε β} {b : β} :
    x >>= f = .ok b ↔ ∃ a, x = .ok a ∧ f a = .ok b := by
  cases x with
  | error exc => exact ⟨fun h => (by cases h), fun ⟨_, h, _⟩ => (by cases h)⟩
  | ok a => exact ⟨fun h => ⟨a, rfl, h⟩, fun ⟨_, h, h'⟩ => (by cases h; exact h')⟩

theorem map_eq_ok {ε α β : Type} {x : Except ε α} {f : α → β} {b : β} :
    x.map f = .ok b ↔ ∃ a, x = .ok a ∧ f a = b := by
  cases x with
  | error exc => exact ⟨fun h => (by cases h), fun ⟨_, h, _⟩ => (by cases h)⟩
  | ok a => exact ⟨fun h => ⟨a, rfl, Except.ok.inj h⟩, fun ⟨_, h, h'⟩ => (by cases h; cases h'; rfl)⟩

end Babeltrace.Excepts
