import Mathlib
import Patchbay.Fault

/-!
# Work that may meet a fault

`Outcome faulty good` says of the result of such work that it is `good`, or that the fault in its
place is one of the `faulty` ones. With no faulty one this is total correctness, and with all of them
partial correctness; proofs about both are the same.
-/

namespace Patchbay

variable {α β : Type}

theorem ok_bind (a : α) (f : α → Except Fault β) : (Except.ok a >>= f) = f a := rfl

theorem bind_eq_ok {x : Except Fault α} {f : α → Except Fault β} {b : β} :
    x >>= f = .ok b ↔ ∃ a, x = .ok a ∧ f a = .ok b := by
  cases x with
  | error e => simp [bind, Except.bind]
  | ok a => simp [bind, Except.bind]

/-- Work on a state that comes to its end has done so part by part. -/
theorem run_bind_eq_ok {ε σ : Type} {x : EStateM ε σ α} {f : α → EStateM ε σ β} {s s' : σ} {b : β} :
    (x >>= f) s = .ok b s' ↔ ∃ a t, x s = .ok a t ∧ f a t = .ok b s' := by
  show EStateM.bind x f s = .ok b s' ↔ _
  unfold EStateM.bind
  cases x s with
  | error e t => simp
  | ok a t =>
    constructor
    · exact fun h => ⟨a, t, rfl, h⟩
    · rintro ⟨_, _, ⟨rfl, rfl⟩, h⟩
      exact h

theorem run_map_eq_ok {ε σ : Type} {x : EStateM ε σ α} {f : α → β} {s s' : σ} {b : β} :
    (f <$> x) s = .ok b s' ↔ ∃ a, x s = .ok a s' ∧ f a = b := by
  show EStateM.map f x s = .ok b s' ↔ _
  unfold EStateM.map
  cases x s with
  | error e t => simp
  | ok a t =>
    constructor
    · rintro ⟨⟩
      exact ⟨a, rfl, rfl⟩
    · rintro ⟨_, ⟨⟩, rfl⟩
      rfl

/-- That a result is good, or else the fault in its place one that may occur. -/
def Outcome (faulty : Fault → Prop) (good : α → Prop) : Except Fault α → Prop
  | .ok a => good a
  | .error f => faulty f

namespace Outcome

variable {faulty : Fault → Prop} {good : α → Prop} {x : Except Fault α}

/-- When every fault may occur nothing is said about the work. -/
theorem total (x : Except Fault α) : Outcome (fun _ => True) (fun _ => True) x := by
  cases x <;> exact ⟨⟩

theorem mono (h : Outcome faulty good x) {good' : α → Prop} (hg : ∀ a, good a → good' a) :
    Outcome faulty good' x := by
  cases x with
  | error e => exact h
  | ok a => exact hg a h

/-- The result may be used together with what is known of it. -/
theorem attach (h : Outcome faulty good x) : Outcome faulty (fun a => good a ∧ x = .ok a) x := by
  cases x with
  | error e => exact h
  | ok a => exact ⟨h, rfl⟩

theorem bind {f : α → Except Fault β} {good' : β → Prop} (h : Outcome faulty good x)
    (hf : ∀ a, good a → Outcome faulty good' (f a)) : Outcome faulty good' (x >>= f) := by
  cases x with
  | error e => exact h
  | ok a => exact hf a h

/-- Without faults that may occur there is a result. -/
theorem exists_ok (h : Outcome (fun _ => False) good x) : ∃ a, x = .ok a ∧ good a := by
  cases x with
  | error e => exact h.elim
  | ok a => exact ⟨a, rfl, h⟩

theorem of_ok (h : Outcome faulty good x) {a : α} (hx : x = .ok a) : good a := by
  subst hx
  exact h

/-- What each step of a loop keeps, the loop keeps. -/
theorem foldlM {f : β → α → Except Fault β} {l : List α} {b : β} (inv : List α → β → Prop)
    (h : inv [] b)
    (step : ∀ done a rest b, l = done ++ a :: rest → inv done b →
      Outcome faulty (inv (done ++ [a])) (f b a)) :
    Outcome faulty (inv l) (l.foldlM f b) := by
  suffices ∀ rest done b, l = done ++ rest → inv done b →
      Outcome faulty (inv l) (rest.foldlM f b) from this l [] b rfl h
  intro rest
  induction rest with
  | nil =>
    intro done b hl hinv
    rw [List.append_nil] at hl
    exact hl ▸ hinv
  | cons a rest ih =>
    intro done b hl hinv
    rw [List.foldlM_cons]
    exact (step done a rest b hl hinv).bind fun b' hb' => ih (done ++ [a]) b' (by simp [hl]) hb'

end Outcome

/-! ## Work on a state -/

section Run

variable {ε σ : Type} (s : σ)

theorem run_bind (x : EStateM ε σ α) (f : α → EStateM ε σ β) :
    (x >>= f) s = match x s with
      | .ok a t => f a t
      | .error e t => .error e t := by
  show EStateM.bind x f s = _
  unfold EStateM.bind
  cases x s <;> rfl

/-- Only what the first part leads to matters to the second. -/
theorem run_bind_congr {x x' : EStateM ε σ α} {f f' : α → EStateM ε σ β} (hx : x s = x' s)
    (hf : ∀ a t, x s = .ok a t → f a t = f' a t) : (x >>= f) s = (x' >>= f') s := by
  rw [run_bind, run_bind, ← hx]
  cases h : x s with
  | error e t => rfl
  | ok a t => exact hf a t h

theorem run_pure (a : α) : (pure a : EStateM ε σ α) s = .ok a s := rfl

theorem run_get_bind (f : σ → EStateM ε σ β) : (get >>= f) s = f s s := rfl

theorem run_set_bind (t : σ) (f : PUnit → EStateM ε σ β) : (set t >>= f) s = f ⟨⟩ t := rfl

theorem run_modify_bind (g : σ → σ) (f : PUnit → EStateM ε σ β) :
    (modify g >>= f) s = f ⟨⟩ (g s) := rfl

end Run

/-- That work on a state has led to something good, or else met one of the faults that it may
meet. -/
def Yields {ε σ : Type} (faulty : ε → σ → Prop) (good : α → σ → Prop) :
    EStateM.Result ε σ α → Prop
  | .ok a s => good a s
  | .error f s => faulty f s

namespace Yields

variable {ε σ : Type} {faulty : ε → σ → Prop} {good : α → σ → Prop} {x : EStateM ε σ α} {s : σ}

theorem mono {r : EStateM.Result ε σ α} (h : Yields faulty good r) {good' : α → σ → Prop}
    (hg : ∀ a t, good a t → good' a t) : Yields faulty good' r := by
  cases r with
  | error e t => exact h
  | ok a t => exact hg a t h

theorem bind {f : α → EStateM ε σ β} {good' : β → σ → Prop} (h : Yields faulty good (x s))
    (hf : ∀ a t, good a t → Yields faulty good' (f a t)) : Yields faulty good' ((x >>= f) s) := by
  show Yields faulty good' (EStateM.bind x f s)
  unfold EStateM.bind
  cases hx : x s with
  | error e t =>
    rw [hx] at h
    exact h
  | ok a t =>
    rw [hx] at h
    exact hf a t h

/-- What holds of every good end, once it is known that the work has led there. -/
theorem and {r : EStateM.Result ε σ α} (h : Yields faulty good r) {good' : α → σ → Prop}
    (hg : ∀ a t, r = .ok a t → good' a t) : Yields faulty (fun a t => good a t ∧ good' a t) r := by
  cases r with
  | error e t => exact h
  | ok a t => exact ⟨h, hg a t rfl⟩

theorem of_ok {r : EStateM.Result ε σ α} (h : Yields faulty good r) {a : α} {t : σ}
    (hr : r = .ok a t) : good a t := by
  subst hr
  exact h

theorem exists_ok {r : EStateM.Result ε σ α} (h : Yields (fun _ _ => False) good r) :
    ∃ a t, r = .ok a t ∧ good a t := by
  cases r with
  | error e t => exact h.elim
  | ok a t => exact ⟨a, t, rfl, h⟩

end Yields
end Patchbay
