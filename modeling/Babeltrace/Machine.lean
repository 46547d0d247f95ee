import Mathlib

/-!
# Machines which face an environment

Facing an environment which satisfies `P`, a state replies that it goes on, possibly with an item,
that it must be retried, or how it ends. `Runs` are complete runs and `Steps` finite parts of runs.
What a step keeps holds along a run (`Steps.invariant`), and a relation which steps keep carries
runs over (`Runs.sim`, `Steps.sim`).
-/
namespace Babeltrace.Machine

variable {σ τ μ ι ε : Type}

inductive Reply (σ ι ε : Type)
  | continue (s : σ)
  | item (i : ι) (s : σ)
  | again (s : σ)
  | ended
  | failed (e : ε)

inductive Reply.Rel (R : σ → τ → Prop) : Reply σ ι ε → Reply τ ι ε → Prop
  | continue {s t} (h : R s t) : Rel R (.continue s) (.continue t)
  | item (i) {s t} (h : R s t) : Rel R (.item i s) (.item i t)
  | again {s t} (h : R s t) : Rel R (.again s) (.again t)
  | ended : Rel R .ended .ended
  | failed (e) : Rel R (.failed e) (.failed e)

def Reply.Gives (Q : List ι → σ → Prop) : Reply σ ι ε → Prop
  | .continue s | .again s => Q [] s
  | .item i s => Q [i] s
  | .ended | .failed _ => True

theorem Reply.Gives.mono {Q Q' : List ι → σ → Prop} {r : Reply σ ι ε} (h : r.Gives Q)
    (hQ : ∀ is s, Q is s → Q' is s) : r.Gives Q' := by
  cases r with
  | «continue» s | item _ s | again s => exact hQ _ s h
  | ended | failed => trivial

inductive Outcome (ε : Type)
  | ended
  | failed (e : ε)
  deriving DecidableEq, Repr

section
variable (step : μ → σ → Reply σ ι ε) (P : σ → μ → Prop)

inductive Runs : σ → List ι → Outcome ε → Prop
  | continue {m s s' is o} (hm : P s m) (h : step m s = .continue s') (rest : Runs s' is o) :
      Runs s is o
  | item {m s s' i is o} (hm : P s m) (h : step m s = .item i s') (rest : Runs s' is o) :
      Runs s (i :: is) o
  | again {m s s' is o} (hm : P s m) (h : step m s = .again s') (rest : Runs s' is o) :
      Runs s is o
  | ended {m s} (hm : P s m) (h : step m s = .ended) : Runs s [] .ended
  | failed {m s e} (hm : P s m) (h : step m s = .failed e) : Runs s [] (.failed e)

inductive Steps : σ → List ι → σ → Prop
  | nil (s) : Steps s [] s
  | continue {m s s' is s''} (hm : P s m) (h : step m s = .continue s')
      (rest : Steps s' is s'') : Steps s is s''
  | item {m s s' i is s''} (hm : P s m) (h : step m s = .item i s') (rest : Steps s' is s'') :
      Steps s (i :: is) s''
  | again {m s s' is s''} (hm : P s m) (h : step m s = .again s') (rest : Steps s' is s'') :
      Steps s is s''

end

section
variable {step : μ → σ → Reply σ ι ε} {P : σ → μ → Prop} {m : μ} {s s' : σ} {is js : List ι}
  {o : Outcome ε} {e : ε}

theorem Steps.trans {s s' s'' : σ} (h : Steps step P s is s') (h' : Steps step P s' js s'') :
    Steps step P s (is ++ js) s'' := by
  induction h with
  | nil => exact h'
  | «continue» hm h _ ih => exact .continue hm h (ih h')
  | item hm h _ ih => exact .item hm h (ih h')
  | again hm h _ ih => exact .again hm h (ih h')

theorem Steps.runs (h : Steps step P s is s') (h' : Runs step P s' js o) :
    Runs step P s (is ++ js) o := by
  induction h with
  | nil => exact h'
  | «continue» hm h _ ih => exact .continue hm h (ih h')
  | item hm h _ ih => exact .item hm h (ih h')
  | again hm h _ ih => exact .again hm h (ih h')

theorem Runs.of_step_eq (hP : ∀ m, P s m → P s' m) (hstep : ∀ m, step m s = step m s')
    (h : Runs step P s is o) : Runs step P s' is o := by
  cases h with
  | «continue» hm h rest => exact .continue (hP _ hm) (hstep _ ▸ h) rest
  | item hm h rest => exact .item (hP _ hm) (hstep _ ▸ h) rest
  | again hm h rest => exact .again (hP _ hm) (hstep _ ▸ h) rest
  | ended hm h => exact .ended (hP _ hm) (hstep _ ▸ h)
  | failed hm h => exact .failed (hP _ hm) (hstep _ ▸ h)

theorem Steps.invariant {I : List ι → σ → Prop}
    (hI : ∀ {m s is}, P s m → I is s → (step m s).Gives fun js s' => I (is ++ js) s')
    (h : Steps step P s js s') (hs : I is s) : I (is ++ js) s' := by
  induction h generalizing is with
  | nil => simpa using hs
  | «continue» hm h _ ih | again hm h _ ih =>
    have hnext := hI hm hs
    rw [h] at hnext
    exact ih (by simpa only [Reply.Gives, List.append_nil] using hnext)
  | @item _ _ _ i js _ hm h _ ih =>
    have hnext := hI hm hs
    rw [h] at hnext
    simpa using ih hnext

theorem Steps.keeps {I : σ → Prop} (hI : ∀ {m s}, P s m → I s → (step m s).Gives fun _ => I)
    (h : Steps step P s is s') (hs : I s) : I s' := by
  induction h with
  | nil => exact hs
  | «continue» hm h _ ih | item hm h _ ih | again hm h _ ih =>
    have hnext := hI hm hs
    rw [h] at hnext
    exact ih hnext

theorem Runs.exists_failed (h : Runs step P s is (.failed e)) :
    ∃ m s', P s' m ∧ Steps step P s is s' ∧ step m s' = .failed e := by
  generalize ho : Outcome.failed e = o at h
  induction h with
  | «continue» hm h _ ih =>
    obtain ⟨m, s', hm', hsteps, hfailed⟩ := ih ho
    exact ⟨m, s', hm', .continue hm h hsteps, hfailed⟩
  | item hm h _ ih =>
    obtain ⟨m, s', hm', hsteps, hfailed⟩ := ih ho
    exact ⟨m, s', hm', .item hm h hsteps, hfailed⟩
  | again hm h _ ih =>
    obtain ⟨m, s', hm', hsteps, hfailed⟩ := ih ho
    exact ⟨m, s', hm', .again hm h hsteps, hfailed⟩
  | ended hm h => cases ho
  | failed hm h =>
    cases ho
    exact ⟨_, _, hm, .nil _, h⟩

theorem exists_runs {I : σ → Prop} {r : σ → σ → Prop} (hr : WellFounded r) (hm : ∀ s, P s m)
    (hI : ∀ s, I s → (step m s).Gives fun _ s' => I s' ∧ r s' s) (hs : I s) :
    ∃ is o, Runs step P s is o := by
  induction s using hr.induction with
  | _ s ih =>
    have hnext := hI s hs
    cases h : step m s with
    | «continue» s' =>
      rw [h] at hnext
      obtain ⟨is, o, hruns⟩ := ih s' hnext.2 hnext.1
      exact ⟨is, o, .continue (hm s) h hruns⟩
    | item i s' =>
      rw [h] at hnext
      obtain ⟨is, o, hruns⟩ := ih s' hnext.2 hnext.1
      exact ⟨i :: is, o, .item (hm s) h hruns⟩
    | again s' =>
      rw [h] at hnext
      obtain ⟨is, o, hruns⟩ := ih s' hnext.2 hnext.1
      exact ⟨is, o, .again (hm s) h hruns⟩
    | ended => exact ⟨[], _, .ended (hm s) h⟩
    | failed e => exact ⟨[], _, .failed (hm s) h⟩

variable {step' : μ → τ → Reply τ ι ε} {P' : τ → μ → Prop} {R : σ → τ → Prop}

variable (hP : ∀ {s t m}, R s t → P s m → P' t m)
  (hR : ∀ {s t} m, R s t → P s m → Reply.Rel R (step m s) (step' m t)) {t : τ} (hst : R s t)

include hP hR hst

theorem Runs.sim (h : Runs step P s is o) : Runs step' P' t is o := by
  induction h generalizing t with
  | «continue» hm h _ ih =>
    have hrel := hR _ hst hm
    rw [h] at hrel
    generalize ht : step' _ t = r at hrel
    cases hrel with
    | «continue» h' => exact .continue (hP hst hm) ht (ih h')
  | item hm h _ ih =>
    have hrel := hR _ hst hm
    rw [h] at hrel
    generalize ht : step' _ t = r at hrel
    cases hrel with
    | item _ h' => exact .item (hP hst hm) ht (ih h')
  | again hm h _ ih =>
    have hrel := hR _ hst hm
    rw [h] at hrel
    generalize ht : step' _ t = r at hrel
    cases hrel with
    | again h' => exact .again (hP hst hm) ht (ih h')
  | ended hm h =>
    have hrel := hR _ hst hm
    rw [h] at hrel
    generalize ht : step' _ t = r at hrel
    cases hrel
    exact .ended (hP hst hm) ht
  | failed hm h =>
    have hrel := hR _ hst hm
    rw [h] at hrel
    generalize ht : step' _ t = r at hrel
    cases hrel
    exact .failed (hP hst hm) ht

theorem Steps.sim (h : Steps step P s is s') : ∃ t', Steps step' P' t is t' ∧ R s' t' := by
  induction h generalizing t with
  | nil => exact ⟨t, .nil t, hst⟩
  | «continue» hm h _ ih =>
    have hrel := hR _ hst hm
    rw [h] at hrel
    generalize ht : step' _ t = r at hrel
    cases hrel with
    | «continue» h' =>
      obtain ⟨t', hs, hr⟩ := ih h'
      exact ⟨t', .continue (hP hst hm) ht hs, hr⟩
  | item hm h _ ih =>
    have hrel := hR _ hst hm
    rw [h] at hrel
    generalize ht : step' _ t = r at hrel
    cases hrel with
    | item _ h' =>
      obtain ⟨t', hs, hr⟩ := ih h'
      exact ⟨t', .item (hP hst hm) ht hs, hr⟩
  | again hm h _ ih =>
    have hrel := hR _ hst hm
    rw [h] at hrel
    generalize ht : step' _ t = r at hrel
    cases hrel with
    | again h' =>
      obtain ⟨t', hs, hr⟩ := ih h'
      exact ⟨t', .again (hP hst hm) ht hs, hr⟩

end

theorem Reply.Rel.flip {R : σ → τ → Prop} {r : Reply σ ι ε} {r' : Reply τ ι ε}
    (h : Reply.Rel R r r') : Reply.Rel (fun t s => R s t) r' r := by
  cases h with
  | «continue» h => exact .continue h
  | item i h => exact .item i h
  | again h => exact .again h
  | ended => exact .ended
  | failed e => exact .failed e

/-! ## Calls -/

section
variable (step : μ → σ → Reply σ ι ε) (P : σ → μ → Prop)

/-- One call: steps up to the first reply which isn't to continue -/
inductive Next : σ → Reply σ ι ε → Prop
  | continue {m s s' r} (hm : P s m) (h : step m s = .continue s') (rest : Next s' r) : Next s r
  | item {m s i s'} (hm : P s m) (h : step m s = .item i s') : Next s (.item i s')
  | again {m s s'} (hm : P s m) (h : step m s = .again s') : Next s (.again s')
  | ended {m s} (hm : P s m) (h : step m s = .ended) : Next s .ended
  | failed {m s e} (hm : P s m) (h : step m s = .failed e) : Next s (.failed e)

inductive Calls : σ → List ι → σ → Prop
  | nil (s) : Calls s [] s
  | item {s i s' is s''} (h : Next step P s (.item i s')) (rest : Calls s' is s'') :
      Calls s (i :: is) s''
  | again {s s' is s''} (h : Next step P s (.again s')) (rest : Calls s' is s'') : Calls s is s''

inductive Run (s : σ) (is : List ι) : Outcome ε → Prop
  | ended {s'} (calls : Calls step P s is s') (h : Next step P s' .ended) : Run s is .ended
  | failed {s' e} (calls : Calls step P s is s') (h : Next step P s' (.failed e)) :
      Run s is (.failed e)

end

variable {step : μ → σ → Reply σ ι ε} {P : σ → μ → Prop} {m : μ} {s s' : σ} {is : List ι}
  {o : Outcome ε} {e : ε}

theorem Next.steps {i : ι} (h : Next step P s (.item i s')) : Steps step P s [i] s' := by
  generalize hr : Reply.item i s' = r at h
  induction h with
  | «continue» hm h _ ih => exact .continue hm h (ih hr)
  | item hm h => cases hr; exact .item hm h (.nil _)
  | again => cases hr
  | ended => cases hr
  | failed => cases hr

theorem Next.steps_again (h : Next step P s (.again s')) : Steps step P s [] s' := by
  generalize hr : Reply.again s' = r at h
  induction h with
  | «continue» hm h _ ih => exact .continue hm h (ih hr)
  | again hm h => cases hr; exact .again hm h (.nil _)
  | item => cases hr
  | ended => cases hr
  | failed => cases hr

theorem Next.runs_ended (h : Next step P s .ended) : Runs step P s [] .ended := by
  generalize hr : Reply.ended = r at h
  induction h with
  | «continue» hm h _ ih => exact .continue hm h (ih hr)
  | ended hm h => exact .ended hm h
  | item => cases hr
  | again => cases hr
  | failed => cases hr

theorem Next.runs_failed (h : Next step P s (.failed e)) : Runs step P s [] (.failed e) := by
  generalize hr : Reply.failed e = r at h
  induction h with
  | «continue» hm h _ ih => exact .continue hm h (ih hr)
  | failed hm h => cases hr; exact .failed hm h
  | item => cases hr
  | again => cases hr
  | ended => cases hr

theorem Calls.steps (h : Calls step P s is s') : Steps step P s is s' := by
  induction h with
  | nil => exact .nil _
  | item h _ ih => exact h.steps.trans ih
  | again h _ ih => exact h.steps_again.trans ih

theorem Run.continue (hm : P s m) (h : step m s = .continue s') (hr : Run step P s' is o) :
    Run step P s is o := by
  have hcalls : ∀ {is s''}, Calls step P s' is s'' →
      Calls step P s is s'' ∨ (is = [] ∧ s'' = s') := by
    intro is s'' hc
    cases hc with
    | nil => exact .inr ⟨rfl, rfl⟩
    | item hn rest => exact .inl (.item (.continue hm h hn) rest)
    | again hn rest => exact .inl (.again (.continue hm h hn) rest)
  cases hr with
  | ended calls hn =>
    obtain hc | ⟨rfl, rfl⟩ := hcalls calls
    · exact .ended hc hn
    · exact .ended (.nil s) (.continue hm h hn)
  | failed calls hn =>
    obtain hc | ⟨rfl, rfl⟩ := hcalls calls
    · exact .failed hc hn
    · exact .failed (.nil s) (.continue hm h hn)

theorem run_iff_runs : Run step P s is o ↔ Runs step P s is o := by
  constructor
  · intro h
    cases h with
    | ended calls hn => simpa using calls.steps.runs hn.runs_ended
    | failed calls hn => simpa using calls.steps.runs hn.runs_failed
  · intro h
    induction h with
    | «continue» hm h _ ih => exact ih.continue hm h
    | item hm h _ ih =>
      cases ih with
      | ended calls hn => exact .ended (.item (.item hm h) calls) hn
      | failed calls hn => exact .failed (.item (.item hm h) calls) hn
    | again hm h _ ih =>
      cases ih with
      | ended calls hn => exact .ended (.again (.again hm h) calls) hn
      | failed calls hn => exact .failed (.again (.again hm h) calls) hn
    | ended hm h => exact .ended (.nil _) (.ended hm h)
    | failed hm h => exact .failed (.nil _) (.failed hm h)

/-! ## Languages -/

def Reply.Produces (lang : σ → Language ι) (L : Language ι) : Reply σ ι ε → Prop
  | .continue s => ∀ w ∈ lang s, w ∈ L
  | .item i s => ∀ w ∈ lang s, i :: w ∈ L
  | .again s => ∀ w ∈ lang s, w ∈ L
  | .ended => [] ∈ L
  | .failed _ => True

section
variable {lang : σ → Language ι}

theorem Steps.append_mem (hstep : ∀ {s m}, P s m → (step m s).Produces lang (lang s))
    {is w : List ι} (h : Steps step P s is s') (hw : w ∈ lang s') : is ++ w ∈ lang s := by
  induction h with
  | nil => exact hw
  | «continue» hm h _ ih | item hm h _ ih | again hm h _ ih =>
    have hp := hstep hm
    rw [h] at hp
    exact hp _ (ih hw)

theorem Runs.mem (hstep : ∀ {s m}, P s m → (step m s).Produces lang (lang s))
    (h : Runs step P s is .ended) : is ∈ lang s := by
  generalize ho : Outcome.ended = o at h
  induction h with
  | «continue» hm h _ ih | item hm h _ ih | again hm h _ ih =>
    have hp := hstep hm
    rw [h] at hp
    exact hp _ (ih ho)
  | ended hm h =>
    have hp := hstep hm
    rwa [h] at hp
  | failed => cases ho

end

/-! ## A single environment -/

/-- The machine only faces `base`. -/
def Alone (base : μ) : σ → μ → Prop := fun _ m => m = base

section
variable {base : μ}

def After (step : μ → σ → Reply σ ι ε) (base : μ) (is : List ι) (o : Outcome ε) :
    Reply σ ι ε → Prop
  | .continue s => Runs step (Alone base) s is o
  | .item i s => ∃ rest, is = i :: rest ∧ Runs step (Alone base) s rest o
  | .again s => Runs step (Alone base) s is o
  | .ended => is = [] ∧ o = .ended
  | .failed e => is = [] ∧ o = .failed e

theorem runs_iff_after : Runs step (Alone base) s is o ↔ After step base is o (step base s) := by
  constructor
  · intro h
    cases h with
    | «continue» hm h rest => subst hm; rw [h]; exact rest
    | item hm h rest => subst hm; rw [h]; exact ⟨_, rfl, rest⟩
    | again hm h rest => subst hm; rw [h]; exact rest
    | ended hm h => subst hm; rw [h]; exact ⟨rfl, rfl⟩
    | failed hm h => subst hm; rw [h]; exact ⟨rfl, rfl⟩
  · intro h
    cases hs : step base s with
    | «continue» s' => rw [hs] at h; exact .continue rfl hs h
    | item i s' =>
      rw [hs] at h
      obtain ⟨rest, rfl, hr⟩ := h
      exact .item rfl hs hr
    | again s' => rw [hs] at h; exact .again rfl hs h
    | ended =>
      rw [hs] at h
      obtain ⟨rfl, rfl⟩ := h
      exact .ended rfl hs
    | failed e =>
      rw [hs] at h
      obtain ⟨rfl, rfl⟩ := h
      exact .failed rfl hs

theorem Runs.det {is is' : List ι} {o o' : Outcome ε} (h : Runs step (Alone base) s is o)
    (h' : Runs step (Alone base) s is' o') : is' = is ∧ o' = o := by
  induction h generalizing is' with
  | «continue» hm h _ ih | again hm h _ ih =>
    subst hm
    rw [runs_iff_after, h] at h'
    exact ih h'
  | item hm h _ ih =>
    subst hm
    rw [runs_iff_after, h] at h'
    obtain ⟨rest, rfl, hr⟩ := h'
    obtain ⟨rfl, rfl⟩ := ih hr
    exact ⟨rfl, rfl⟩
  | ended hm h =>
    subst hm
    rwa [runs_iff_after, h] at h'
  | failed hm h =>
    subst hm
    rwa [runs_iff_after, h] at h'

end

/-! ## Evaluation -/

/-- At most `fuel` steps, the `k`-th one, from `s`, facing `ms k s`; `acc` holds the items so far.
-/
def evalRun (step : μ → σ → Reply σ ι ε) (ms : ℕ → σ → μ) :
    ℕ → ℕ → List ι → σ → Option (List ι × Outcome ε)
  | 0, _, _, _ => none
  | fuel + 1, k, acc, s =>
    match step (ms k s) s with
    | .continue s => evalRun step ms fuel (k + 1) acc s
    | .item i s => evalRun step ms fuel (k + 1) (i :: acc) s
    | .again s => evalRun step ms fuel (k + 1) acc s
    | .ended => some (acc.reverse, .ended)
    | .failed e => some (acc.reverse, .failed e)

theorem evalRun_runs {ms : ℕ → σ → μ} (hP : ∀ k s, P s (ms k s)) {fuel k : ℕ} {acc is : List ι}
    (h : evalRun step ms fuel k acc s = some (is, o)) :
    ∃ rest, is = acc.reverse ++ rest ∧ Runs step P s rest o := by
  induction fuel generalizing k acc s with
  | zero => cases h
  | succ fuel ih =>
    unfold evalRun at h
    split at h
    · rename_i s₁ heq
      obtain ⟨rest, rfl, hr⟩ := ih h
      exact ⟨rest, rfl, .continue (hP k s) heq hr⟩
    · rename_i i s₁ heq
      obtain ⟨rest, rfl, hr⟩ := ih h
      exact ⟨i :: rest, by simp, .item (hP k s) heq hr⟩
    · rename_i s₁ heq
      obtain ⟨rest, rfl, hr⟩ := ih h
      exact ⟨rest, rfl, .again (hP k s) heq hr⟩
    · rename_i heq
      cases h
      exact ⟨[], by simp, .ended (hP k s) heq⟩
    · rename_i e heq
      cases h
      exact ⟨[], by simp, .failed (hP k s) heq⟩

def evalCheck (step : μ → σ → Reply σ ι ε) (ms : ℕ → σ → μ) (fuel : ℕ) (s : σ)
    (check : List ι → Outcome ε → Bool) : Bool :=
  match evalRun step ms fuel 0 [] s with
  | some (is, o) => check is o
  | none => false

theorem evalCheck_sound {ms : ℕ → σ → μ} (hP : ∀ k s, P s (ms k s)) {fuel : ℕ}
    {check : List ι → Outcome ε → Bool} (h : evalCheck step ms fuel s check = true) :
    ∃ is o, Runs step P s is o ∧ check is o = true := by
  unfold evalCheck at h
  split at h
  · rename_i is o heval
    obtain ⟨rest, hitems, hrun⟩ := evalRun_runs hP heval
    exact ⟨is, o, by simpa [hitems] using hrun, h⟩
  · cases h

/-- All the steps are from states which satisfy `ok`. -/
def evalSteps (step : μ → σ → Reply σ ι ε) (m : μ) (ok : σ → Bool) :
    ℕ → List ι → σ → Option (List ι × σ)
  | 0, acc, s => some (acc.reverse, s)
  | n + 1, acc, s =>
    if ok s then
      match step m s with
      | .continue s => evalSteps step m ok n acc s
      | .item i s => evalSteps step m ok n (i :: acc) s
      | .again s => evalSteps step m ok n acc s
      | _ => none
    else none

theorem evalSteps_steps {ok : σ → Bool} (hP : ∀ s, ok s = true → P s m) {n : ℕ} {acc is : List ι}
    (h : evalSteps step m ok n acc s = some (is, s')) :
    ∃ rest, is = acc.reverse ++ rest ∧ Steps step P s rest s' := by
  induction n generalizing acc s with
  | zero =>
    cases h
    exact ⟨[], by simp, .nil _⟩
  | succ n ih =>
    unfold evalSteps at h
    split at h
    · rename_i hok
      split at h
      · rename_i s₁ heq
        obtain ⟨rest, rfl, hs⟩ := ih h
        exact ⟨rest, rfl, .continue (hP s hok) heq hs⟩
      · rename_i i s₁ heq
        obtain ⟨rest, rfl, hs⟩ := ih h
        exact ⟨i :: rest, by simp, .item (hP s hok) heq hs⟩
      · rename_i s₁ heq
        obtain ⟨rest, rfl, hs⟩ := ih h
        exact ⟨rest, rfl, .again (hP s hok) heq hs⟩
      · cases h
    · cases h

def evalStepsCheck (step : μ → σ → Reply σ ι ε) (m : μ) (ok : σ → Bool) (n : ℕ) (s : σ)
    (check : List ι → σ → Bool) : Bool :=
  match evalSteps step m ok n [] s with
  | some (is, s') => check is s'
  | none => false

theorem evalStepsCheck_sound {ok : σ → Bool} (hP : ∀ s, ok s = true → P s m) {n : ℕ}
    {check : List ι → σ → Bool} (h : evalStepsCheck step m ok n s check = true) :
    ∃ is s', Steps step P s is s' ∧ check is s' = true := by
  unfold evalStepsCheck at h
  split at h
  · rename_i is s' heval
    obtain ⟨rest, hitems, hsteps⟩ := evalSteps_steps hP heval
    exact ⟨is, s', by simpa [hitems] using hsteps, h⟩
  · cases h

end Babeltrace.Machine
