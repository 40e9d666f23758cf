import Mathlib.Data.List.Basic

/-!
# Outcomes of stateful computations

A computation over a state either returns a value or raises an error, and keeps
the state it has reached in both cases. `Yields` is its weakest precondition at
one starting state, with one condition for each of the two endings. The rules
compute it along a program; callees are cited through `Yields.mono`.
-/

namespace Effect

universe u

variable {ε σ α β : Type u}

/-- Started in `s`, the computation ends in `Q` with its value or in `E` with its error. -/
def Yields (x : EStateM ε σ α) (Q : α → σ → Prop) (E : ε → σ → Prop) (s : σ) : Prop :=
  match x s with
  | .ok a t => Q a t
  | .error e t => E e t

/-- A pure result as a computation; `f` says which error it raises. -/
def ofExcept {δ : Type u} (f : δ → ε) : Except δ α → EStateM ε σ α
  | .ok a => pure a
  | .error e => throw (f e)

/-- A sequence returns a value exactly if both halves do. -/
theorem bind_eq_ok_iff {x : Except ε α} {f : α → Except ε β} {b : β} :
    x >>= f = .ok b ↔ ∃ a, x = .ok a ∧ f a = .ok b := by
  cases x with
  | error e => simp [bind, Except.bind]
  | ok a => simp [bind, Except.bind]

/-- A mapped result is a value exactly if the result is. -/
theorem map_eq_ok_iff {x : Except ε α} {f : α → β} {b : β} :
    x.map f = .ok b ↔ ∃ a, x = .ok a ∧ f a = b := by
  cases x with
  | ok a => simp [Except.map]
  | error e => simp [Except.map]

/-- The computation with its errors rewritten. -/
def mapError (f : ε → ε) (x : EStateM ε σ α) : EStateM ε σ α := fun s =>
  match x s with
  | .ok a t => .ok a t
  | .error e t => .error (f e) t

section Rules

variable {Q : α → σ → Prop} {E : ε → σ → Prop} {s : σ}

/-- A value changes no state. -/
@[simp] theorem yields_pure (a : α) : Yields (pure a : EStateM ε σ α) Q E s ↔ Q a s := Iff.rfl

/-- An error changes no state. -/
@[simp] theorem yields_throw (e : ε) : Yields (throw e : EStateM ε σ α) Q E s ↔ E e s := Iff.rfl

/-- A sequence is judged by its second half, wherever the first half ends normally. -/
@[simp] theorem yields_bind (x : EStateM ε σ α) (f : α → EStateM ε σ β) {Q : β → σ → Prop} :
    Yields (x >>= f) Q E s ↔ Yields x (fun a => Yields (f a) Q E) E s := by
  simp only [Yields, bind, EStateM.bind]
  cases x s <;> rfl

/-- Mapping a value is seen by what follows only. -/
@[simp] theorem yields_map (x : EStateM ε σ α) (f : α → β) {Q : β → σ → Prop} :
    Yields (f <$> x) Q E s ↔ Yields x (fun a => Q (f a)) E s := by
  simp only [Yields, Functor.map, EStateM.map]
  cases x s <;> rfl

/-- The state is what is read. -/
@[simp] theorem yields_get {Q : σ → σ → Prop} :
    Yields (get : EStateM ε σ σ) Q E s ↔ Q s s := Iff.rfl

/-- A change of the state is seen by what follows. -/
@[simp] theorem yields_modify {Q : PUnit → σ → Prop} (f : σ → σ) :
    Yields (modify f : EStateM ε σ PUnit) Q E s ↔ Q ⟨⟩ (f s) := Iff.rfl

/-- A pure result is its value or its error, in the state as it is. -/
@[simp] theorem yields_ofExcept {δ : Type u} (f : δ → ε) (x : Except δ α) :
    Yields (ofExcept f x) Q E s ↔
      (∀ a, x = .ok a → Q a s) ∧ ∀ e, x = .error e → E (f e) s := by
  cases x <;> simp [ofExcept]

/-- Rewriting an error is seen by who handles it only. -/
@[simp] theorem yields_mapError (f : ε → ε) (x : EStateM ε σ α) :
    Yields (mapError f x) Q E s ↔ Yields x Q (fun e => E (f e)) s := by
  simp only [Yields, mapError]
  cases x s <;> rfl

/-- Both endings may be weakened, so a callee is used through its own specification. -/
theorem Yields.mono {x : EStateM ε σ α} {Q' : α → σ → Prop} {E' : ε → σ → Prop}
    (h : Yields x Q E s) (hq : ∀ a t, Q a t → Q' a t) (he : ∀ e t, E e t → E' e t) :
    Yields x Q' E' s := by
  unfold Yields at *
  cases hx : x s with
  | ok a t =>
    rw [hx] at h
    exact hq a t h
  | error e t =>
    rw [hx] at h
    exact he e t h

/-- Two specifications of one computation hold together. -/
theorem Yields.and {x : EStateM ε σ α} {Q' : α → σ → Prop} {E' : ε → σ → Prop}
    (h : Yields x Q E s) (h' : Yields x Q' E' s) :
    Yields x (fun a t => Q a t ∧ Q' a t) (fun e t => E e t ∧ E' e t) s := by
  unfold Yields at *
  cases hx : x s with
  | ok a t =>
    rw [hx] at h h'
    exact ⟨h, h'⟩
  | error e t =>
    rw [hx] at h h'
    exact ⟨h, h'⟩

/-- The specification of a computation that returned. -/
theorem Yields.of_ok {x : EStateM ε σ α} (h : Yields x Q E s) {a : α} {t : σ}
    (hx : x s = .ok a t) : Q a t := by
  unfold Yields at h
  rwa [hx] at h

/-- The specification of a computation that raised an error. -/
theorem Yields.of_error {x : EStateM ε σ α} (h : Yields x Q E s) {e : ε} {t : σ}
    (hx : x s = .error e t) : E e t := by
  unfold Yields at h
  rwa [hx] at h

end Rules

/-- The loop rule: an invariant over the items already visited, kept by every pass,
holds of all items at the end; a pass that raises an error ends the loop. -/
theorem yields_forM {xs : List α} {f : α → EStateM ε σ PUnit} {I : List α → σ → Prop}
    {E : ε → σ → Prop}
    (hf : ∀ done x rest s, xs = done ++ x :: rest → I done s →
      Yields (f x) (fun _ => I (done ++ [x])) E s)
    {s : σ} (hs : I [] s) : Yields (forM xs f) (fun _ => I xs) E s := by
  suffices h : ∀ done rest s, xs = done ++ rest → I done s →
      Yields (forM rest f) (fun _ => I xs) E s from h [] xs s rfl hs
  intro done rest
  induction rest generalizing done with
  | nil =>
    intro s he hd
    rw [List.append_nil] at he
    subst he
    exact hd
  | cons x rest ih =>
    intro s he hd
    rw [List.forM_cons, yields_bind]
    refine (hf done x rest s he hd).mono (fun _ t ht => ?_) (fun _ _ he => he)
    exact ih (done ++ [x]) t (by simpa using he) ht

/-- What a family of computations may do to the state, and what lies behind their errors.
Both are seen from the start, so what was done before an error counts for it. -/
structure Frame (ε σ : Type u) where
  step : σ → σ → Prop
  fails : ε → σ → σ → Prop
  refl : ∀ s, step s s
  trans : ∀ {s t v}, step s t → step t v → step s v
  fails_of_step : ∀ {e s t v}, step s t → fails e t v → fails e s v

/-- From every state with the invariant the computation stays in the frame, keeps the
invariant, and answers with an `R` if it answers. -/
def Ensures (F : Frame ε σ) (I : σ → Prop) (x : EStateM ε σ α) (R : α → Prop) : Prop :=
  ∀ s, I s → Yields x (fun a t => F.step s t ∧ I t ∧ R a) (fun e t => F.fails e s t ∧ I t) s

namespace Ensures

variable {F : Frame ε σ} {I : σ → Prop} {R : α → Prop}

/-- A value that is as required ensures it. -/
theorem pure {a : α} (h : R a) : Ensures F I (pure a) R := by
  intro s hs
  exact ⟨F.refl s, hs, h⟩

/-- What is ensured may be weakened. -/
theorem mono {x : EStateM ε σ α} {R' : α → Prop} (h : Ensures F I x R) (hr : ∀ a, R a → R' a) :
    Ensures F I x R' := by
  intro s hs
  exact (h s hs).mono (fun a t ht => ⟨ht.1, ht.2.1, hr a ht.2.2⟩) (fun _ _ ht => ht)

/-- Sequencing: the second half may rely on what the first has answered. -/
theorem bind {x : EStateM ε σ α} {f : α → EStateM ε σ β} {R' : β → Prop}
    (h : Ensures F I x R) (hf : ∀ a, R a → Ensures F I (f a) R') : Ensures F I (x >>= f) R' := by
  intro s hs
  rw [yields_bind]
  refine (h s hs).mono (fun a t ⟨hst, ht, ha⟩ => ?_) (fun _ _ ht => ht)
  refine (hf a ha t ht).mono ?_ ?_
  · rintro b u ⟨htu, hu⟩
    exact ⟨F.trans hst htu, hu⟩
  · rintro e u ⟨htu, hu⟩
    exact ⟨F.fails_of_step hst htu, hu⟩

/-- What is ensured of a value holds of what it is mapped to. -/
theorem map {x : EStateM ε σ α} {g : α → β} {R' : β → Prop} (h : Ensures F I x R)
    (hg : ∀ a, R a → R' (g a)) : Ensures F I (g <$> x) R' := by
  intro s hs
  rw [yields_map]
  exact (h s hs).mono (fun a t ht => ⟨ht.1, ht.2.1, hg a ht.2.2⟩) (fun _ _ ht => ht)

/-- The same computation in a wider frame, with an invariant that the frame keeps. -/
theorem widen {G : Frame ε σ} {J : σ → Prop} {x : EStateM ε σ α} (h : Ensures F I x R)
    (hstep : ∀ s t, F.step s t → G.step s t ∧ (J s → J t))
    (hfails : ∀ e s t, F.fails e s t → G.fails e s t ∧ (J s → J t)) :
    Ensures G (fun s => J s ∧ I s) x R := by
  rintro s ⟨hj, hi⟩
  refine (h s hi).mono ?_ ?_
  · rintro a t ⟨hst, ht, ha⟩
    exact ⟨(hstep s t hst).1, ⟨(hstep s t hst).2 hj, ht⟩, ha⟩
  · rintro e t ⟨hst, ht⟩
    exact ⟨(hfails e s t hst).1, (hfails e s t hst).2 hj, ht⟩

end Ensures

/-- The answer a computation gives, without the state it leaves. -/
def answer (x : EStateM ε σ α) (s : σ) : Except ε α :=
  match x s with
  | .ok a _ => .ok a
  | .error e _ => .error e

/-- The state a computation leaves, however it ends. -/
def after (x : EStateM ε σ α) (s : σ) : σ :=
  match x s with
  | .ok _ t => t
  | .error _ t => t

/-- A computation with an answer ends with it, in the state that it leaves. -/
theorem eq_ok_of_answer {x : EStateM ε σ α} {s : σ} {a : α} (h : answer x s = .ok a) :
    x s = .ok a (after x s) := by
  unfold answer after at *
  cases hx : x s with
  | ok b t =>
    rw [hx] at h
    rw [Except.ok.inj h]
  | error e t =>
    rw [hx] at h
    cases h

/-- The answer of a sequence is that of its second half, if the first one answers. -/
theorem answer_bind (x : EStateM ε σ α) (f : α → EStateM ε σ β) (s : σ) :
    answer (x >>= f) s = (answer x s).bind fun a => answer (f a) (after x s) := by
  simp only [answer, after, bind, EStateM.bind]
  cases x s <;> rfl

/-- The state after a sequence, which ends early if the first half fails. -/
theorem after_bind (x : EStateM ε σ α) (f : α → EStateM ε σ β) (s : σ) :
    after (x >>= f) s =
      match answer x s with
      | .ok a => after (f a) (after x s)
      | .error _ => after x s := by
  simp only [answer, after, bind, EStateM.bind]
  cases x s <;> rfl

/-- From every state with the invariant the computation gives this answer, and keeps the
invariant. -/
def Settles (I : σ → Prop) (x : EStateM ε σ α) (r : Except ε α) : Prop :=
  ∀ s, I s → answer x s = r ∧ I (after x s)

namespace Settles

variable {I : σ → Prop}

/-- A value is settled. -/
theorem pure (a : α) : Settles I (pure a : EStateM ε σ α) (.ok a) := fun _ hs => ⟨rfl, hs⟩

/-- An error is settled. -/
theorem throw (e : ε) : Settles I (throw e : EStateM ε σ α) (.error e) := fun _ hs => ⟨rfl, hs⟩

/-- A sequence answers as its second half does on the answer of the first. -/
theorem bind {x : EStateM ε σ α} {f : α → EStateM ε σ β} {r : Except ε α} {g : α → Except ε β}
    (h : Settles I x r) (hf : ∀ a, r = .ok a → Settles I (f a) (g a)) :
    Settles I (x >>= f) (r.bind g) := by
  intro s hs
  obtain ⟨hanswer, hafter⟩ := h s hs
  rw [answer_bind, after_bind, hanswer]
  cases r with
  | error e => exact ⟨rfl, hafter⟩
  | ok a => exact hf a rfl _ hafter

end Settles

/-- The answer does not depend on the state, and is an `R` if the computation returns. -/
def Uniform (I : σ → Prop) (x : EStateM ε σ α) (R : α → Prop) : Prop :=
  ∃ r : Except ε α, (∀ a, r = .ok a → R a) ∧ Settles I x r

namespace Uniform

variable {I : σ → Prop} {R : α → Prop}

/-- A value leaves the invariant alone. -/
theorem pure {a : α} (h : R a) : Uniform I (pure a : EStateM ε σ α) R :=
  ⟨.ok a, fun _ ha => Except.ok.inj ha ▸ h, .pure a⟩

/-- An error leaves the invariant alone. -/
theorem throw (e : ε) : Uniform I (throw e : EStateM ε σ α) R :=
  ⟨.error e, fun _ ha => (by cases ha), .throw e⟩

/-- A pure result answers the same in every state. -/
theorem ofExcept {δ : Type u} (f : δ → ε) (x : Except δ α) :
    Uniform I (Effect.ofExcept f x : EStateM ε σ α) fun a => x = .ok a := by
  cases x with
  | ok a => exact pure rfl
  | error e => exact throw (f e)

/-- Sequencing: the second half starts with an answer that does not depend on the state. -/
theorem bind {x : EStateM ε σ α} {f : α → EStateM ε σ β} {R' : β → Prop} (h : Uniform I x R)
    (hf : ∀ a, R a → Uniform I (f a) R') : Uniform I (x >>= f) R' := by
  obtain ⟨r, hR, hsettles⟩ := h
  cases r with
  | error e =>
    refine ⟨.error e, fun _ ha => (by cases ha), ?_⟩
    have hbind := hsettles.bind (f := f) (g := fun _ => .error e) fun a ha => (by cases ha)
    exact hbind
  | ok a =>
    obtain ⟨r', hR', hsettles'⟩ := hf a (hR a rfl)
    refine ⟨r', hR', ?_⟩
    have hbind := hsettles.bind (f := f) (g := fun _ => r') fun b hb =>
      Except.ok.inj hb ▸ hsettles'
    exact hbind

/-- A mapped answer is the same in every state if the answer is. -/
theorem map {x : EStateM ε σ α} {g : α → β} {R' : β → Prop} (h : Uniform I x R)
    (hg : ∀ a, R a → R' (g a)) : Uniform I (g <$> x) R' := by
  rw [map_eq_pure_bind]
  exact h.bind fun a ha => .pure (hg a ha)

/-- Two states with the invariant get the same answer. -/
theorem same {x : EStateM ε σ α} (h : Uniform I x R) {s t : σ} (hs : I s) (ht : I t) :
    answer x s = answer x t := by
  obtain ⟨r, _, hsettles⟩ := h
  rw [(hsettles s hs).1, (hsettles t ht).1]

/-- The invariant is kept, with an answer or with an error. -/
theorem keeps {x : EStateM ε σ α} (h : Uniform I x R) {s : σ} (hs : I s) : I (after x s) := by
  obtain ⟨r, _, hsettles⟩ := h
  exact (hsettles s hs).2

end Uniform

/-- An outcome condition, read off the answer and the final state. -/
theorem yields_iff {x : EStateM ε σ α} {Q : α → σ → Prop} {E : ε → σ → Prop} {s : σ} :
    Yields x Q E s ↔
      match answer x s with
      | .ok a => Q a (after x s)
      | .error e => E e (after x s) := by
  unfold Yields answer after
  cases x s <;> rfl

/-- A computation that cannot raise an error returns. -/
theorem Yields.returns {x : EStateM ε σ α} {Q : α → σ → Prop} {s : σ}
    (h : Yields x Q (fun _ _ => False) s) : ∃ a, answer x s = .ok a ∧ Q a (after x s) := by
  unfold Yields at h
  unfold answer after
  cases hx : x s with
  | ok a t =>
    rw [hx] at h
    exact ⟨a, rfl, h⟩
  | error e t =>
    rw [hx] at h
    exact h.elim

/-- A computation that cannot return raises an error. -/
theorem Yields.raises {x : EStateM ε σ α} {E : ε → σ → Prop} {s : σ}
    (h : Yields x (fun _ _ => False) E s) : ∃ e, answer x s = .error e ∧ E e (after x s) := by
  unfold Yields at h
  unfold answer after
  cases hx : x s with
  | ok a t =>
    rw [hx] at h
    exact h.elim
  | error e t =>
    rw [hx] at h
    exact ⟨e, rfl, h⟩

/-- From every state with the invariant the computation returns. -/
def Returns (I : σ → Prop) (x : EStateM ε σ α) : Prop :=
  ∀ s, I s → ∃ a t, x s = .ok a t

namespace Returns

variable {I J : σ → Prop}

/-- A value returns. -/
theorem pure (a : α) : Returns I (pure a : EStateM ε σ α) := fun s _ => ⟨a, s, rfl⟩

/-- A stronger invariant will do. -/
theorem weaken {x : EStateM ε σ α} (h : Returns I x) (hij : ∀ s, J s → I s) : Returns J x :=
  fun s hs => h s (hij s hs)

/-- Mapping a value does not keep it from returning. -/
theorem map {x : EStateM ε σ α} (h : Returns I x) (g : α → β) : Returns I (g <$> x) := by
  intro s hs
  obtain ⟨a, t, ht⟩ := h s hs
  refine ⟨g a, t, ?_⟩
  simp only [Functor.map, EStateM.map, ht]

/-- A sequence returns if its second half does on all that the first half may answer. -/
theorem bind {F : Frame ε σ} {R : α → Prop} {x : EStateM ε σ α} {f : α → EStateM ε σ β}
    (h : Returns I x) (hx : Ensures F I x R) (hf : ∀ a, R a → Returns I (f a)) :
    Returns I (x >>= f) := by
  intro s hs
  obtain ⟨a, t, ht⟩ := h s hs
  obtain ⟨_, hI, ha⟩ := (hx s hs).of_ok ht
  obtain ⟨b, u, hu⟩ := hf a ha t hI
  refine ⟨b, u, ?_⟩
  simp only [Bind.bind, EStateM.bind, ht, hu]

/-- What returns gives an answer. -/
theorem answers {x : EStateM ε σ α} (h : Returns I x) {s : σ} (hs : I s) :
    ∃ a, answer x s = .ok a := by
  obtain ⟨a, t, ht⟩ := h s hs
  refine ⟨a, ?_⟩
  rw [answer, ht]

end Returns

/-- A computation by what it does; what its errors say is left out. -/
def quiet (x : EStateM ε σ α) : EStateM PUnit σ α := fun s =>
  match x s with
  | .ok a t => .ok a t
  | .error _ t => .error ⟨⟩ t

/-- What the errors of a sequence say is left out of both halves. -/
@[simp] theorem quiet_bind (x : EStateM ε σ α) (f : α → EStateM ε σ β) :
    quiet (x >>= f) = quiet x >>= fun a => quiet (f a) := by
  funext s
  simp only [quiet, bind, EStateM.bind]
  cases x s <;> rfl

/-- What errors say does not change the state that is left. -/
theorem after_quiet (x : EStateM ε σ α) (s : σ) : after (quiet x) s = after x s := by
  simp only [after, quiet]
  cases x s <;> rfl

/-- Which error a pure result raises does not matter. -/
theorem quiet_ofExcept {δ δ' ε' : Type u} {f : δ → ε} {f' : δ' → ε'} {x : Except δ α}
    {x' : Except δ' α} (h : x.toOption = x'.toOption) :
    quiet (ofExcept f x : EStateM ε σ α) = quiet (ofExcept f' x' : EStateM ε' σ α) := by
  cases x with
  | error e =>
    cases x' with
    | error e' => rfl
    | ok b => cases h
  | ok a =>
    cases x' with
    | error e' => cases h
    | ok b =>
      obtain rfl := Option.some.inj h
      rfl

/-- A loop does the same if its passes do. -/
theorem quiet_forM {xs : List α} {f g : α → EStateM ε σ PUnit}
    (h : ∀ x ∈ xs, quiet (f x) = quiet (g x)) : quiet (forM xs f) = quiet (forM xs g) := by
  induction xs with
  | nil => rfl
  | cons x rest ih =>
    have hrest := ih fun y hy => h y (List.mem_cons_of_mem _ hy)
    rw [List.forM_cons, List.forM_cons, quiet_bind, quiet_bind, h x List.mem_cons_self, hrest]

end Effect

/-!
# Runs

A run feeds a list of requests to a step function and records every transition.
The run rule turns what one step keeps into what every transition of a run has.
-/

namespace Runs

universe u v w

/-- One step of a run: the states around it, the request and the answer. -/
structure Transition (σ : Type u) (ρ : Type v) (α : Type w) where
  before : σ
  request : ρ
  answer : α
  after : σ

variable {σ : Type u} {ρ : Type v} {α : Type w}

/-- All transitions of a run, first step first. -/
def transitions (step : σ → ρ → α × σ) : σ → List ρ → List (Transition σ ρ α)
  | _, [] => []
  | s, q :: qs =>
    ⟨s, q, (step s q).1, (step s q).2⟩ :: transitions step (step s q).2 qs

/-- The state after the whole run. -/
def final (step : σ → ρ → α × σ) : σ → List ρ → σ
  | s, [] => s
  | s, q :: qs => final step (step s q).2 qs

/-- The run rule. While every step meets the guard, an invariant that guarded
steps keep holds around every transition, with whatever each step establishes. -/
theorem forall_transitions {step : σ → ρ → α × σ} {I : σ → Prop} {G : σ → ρ → Prop}
    {R : Transition σ ρ α → Prop}
    (hstep : ∀ s q, I s → G s q → I (step s q).2 ∧ R ⟨s, q, (step s q).1, (step s q).2⟩)
    {s : σ} {qs : List ρ} (hs : I s)
    (hg : ∀ t ∈ transitions step s qs, G t.before t.request) :
    ∀ t ∈ transitions step s qs, I t.before ∧ I t.after ∧ R t := by
  induction qs generalizing s with
  | nil => intro t ht; simp [transitions] at ht
  | cons q qs ih =>
    have hq := hstep s q hs (hg _ (List.mem_cons_self ..))
    intro t ht
    rcases List.mem_cons.mp ht with rfl | ht
    · exact ⟨hs, hq⟩
    · exact ih hq.1 (fun t ht => hg t (List.mem_cons_of_mem _ ht)) t ht

/-- An invariant kept by every guarded step holds at the end of a guarded run. -/
theorem final_of_step {step : σ → ρ → α × σ} {I : σ → Prop} {G : σ → ρ → Prop}
    (hstep : ∀ s q, I s → G s q → I (step s q).2)
    {s : σ} {qs : List ρ} (hs : I s)
    (hg : ∀ t ∈ transitions step s qs, G t.before t.request) : I (final step s qs) := by
  induction qs generalizing s with
  | nil => exact hs
  | cons q qs ih =>
    have hq := hstep s q hs (hg _ (List.mem_cons_self ..))
    exact ih hq (fun t ht => hg t (List.mem_cons_of_mem _ ht))

end Runs
