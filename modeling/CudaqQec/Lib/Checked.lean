import Mathlib.Data.List.Basic
import Mathlib.Data.List.Forall2

/-!
# Checked computations

A function that validates its input before it computes is a chain of checks in `Except`: each one
throws or lets the next one run. Nothing here looks at what is thrown — a caller that got a value
back only ever needs to know that every check on the way let it pass.

* `throwIf c e` throws `e` exactly when `c` holds.
* `bind_eq_ok`, `forM_eq_ok`, `mapM_eq_ok` take a computation that returned apart into the steps that returned.
-/

namespace CudaqQec.Checked

variable {ε α β : Type}

def throwIf (c : Prop) [Decidable c] (e : ε) : Except ε Unit :=
  if c then .error e else .ok ()

/-! ## Guards -/

@[simp] theorem throwIf_eq_ok {c : Prop} [Decidable c] {e : ε} {u : Unit} :
    throwIf c e = .ok u ↔ ¬ c := by
  unfold throwIf
  split <;> simp_all

theorem throwIf_of_not {c : Prop} [Decidable c] {e : ε} (h : ¬ c) : throwIf c e = .ok () := by
  simp [throwIf, h]

theorem throwIf_of {c : Prop} [Decidable c] {e : ε} (h : c) : throwIf c e = .error e := by
  simp [throwIf, h]

/-! ## Sequences -/

/-- A sequence of two steps returns exactly when both do. -/
theorem bind_eq_ok {x : Except ε α} {f : α → Except ε β} {b : β} :
    (x >>= f) = .ok b ↔ ∃ a, x = .ok a ∧ f a = .ok b := by
  cases x with
  | error e => simp [bind, Except.bind]
  | ok a => simp [bind, Except.bind]

@[simp] theorem ok_bind (a : α) (f : α → Except ε β) : (Except.ok a >>= f) = f a := rfl

@[simp] theorem error_bind (e : ε) (f : α → Except ε β) :
    (Except.error e >>= f) = .error e := rfl

/-- An error that neither step throws is not thrown by their sequence. -/
theorem bind_ne_error {x : Except ε α} {f : α → Except ε β} {e : ε} (hx : x ≠ .error e)
    (hf : ∀ a, x = .ok a → f a ≠ .error e) : (x >>= f) ≠ .error e := by
  cases x with
  | error e' => simpa using hx
  | ok a => exact hf a rfl

theorem throwIf_ne_error {c : Prop} [Decidable c] {e e' : ε} (h : e ≠ e') :
    throwIf c e ≠ .error e' := by
  unfold throwIf
  split
  · simpa using h
  · simp

/-! ## Which errors a loop throws -/

theorem foldlM_ne_error {l : List α} {f : β → α → Except ε β} {e : ε}
    (h : ∀ b, ∀ a ∈ l, f b a ≠ .error e) (b : β) : l.foldlM f b ≠ .error e := by
  induction l generalizing b with
  | nil => simp [pure, Except.pure]
  | cons a l ih =>
    rw [List.foldlM_cons]
    exact bind_ne_error (h b a (by simp)) fun b' _ => ih (fun b x hx => h b x (by simp [hx])) b'

theorem mapM_ne_error {l : List α} {f : α → Except ε β} {e : ε} (h : ∀ a ∈ l, f a ≠ .error e) :
    l.mapM f ≠ .error e := by
  induction l with
  | nil => simp [pure, Except.pure]
  | cons a l ih =>
    rw [List.mapM_cons]
    refine bind_ne_error (h a (by simp)) fun b _ => ?_
    refine bind_ne_error (ih fun x hx => h x (by simp [hx])) fun bs _ => ?_
    simp [pure, Except.pure]

/-! ## Loops that return -/

/-- A computation that is found to return has something it returns. -/
theorem exists_eq_ok {x : Except ε α} (h : x.isOk = true) : ∃ a, x = .ok a := by
  cases x with
  | error e => cases h
  | ok a => exact ⟨a, rfl⟩

/-- A check of every element of a list passes exactly when each element's check does. -/
theorem forM_eq_ok {l : List α} {f : α → Except ε PUnit} {u : PUnit} :
    forM l f = .ok u ↔ ∀ x ∈ l, f x = .ok () := by
  induction l with
  | nil => simp [pure, Except.pure]
  | cons a l ih =>
    rw [List.forM_cons, bind_eq_ok]
    constructor
    · rintro ⟨_, ha, hl⟩ x hx
      rcases List.mem_cons.mp hx with rfl | hx
      · exact ha
      · exact ih.mp hl x hx
    · intro h
      exact ⟨(), h a (by simp), ih.mpr fun x hx => h x (by simp [hx])⟩

/-- A computation on every element of a list returns exactly when each element's does. -/
theorem mapM_eq_ok {l : List α} {f : α → Except ε β} {ys : List β} :
    l.mapM f = .ok ys ↔ List.Forall₂ (fun x y => f x = .ok y) l ys := by
  induction l generalizing ys with
  | nil =>
    rw [List.mapM_nil, List.forall₂_nil_left_iff]
    exact ⟨fun h => (Except.ok.inj h).symm, fun h => h ▸ rfl⟩
  | cons a l ih =>
    rw [List.mapM_cons, bind_eq_ok]
    constructor
    · rintro ⟨y, hy, h⟩
      obtain ⟨ys', hys, hok⟩ := bind_eq_ok.mp h
      cases hok
      exact .cons hy (ih.mp hys)
    · intro h
      cases h with
      | cons hy hys => exact ⟨_, hy, bind_eq_ok.mpr ⟨_, ih.mpr hys, rfl⟩⟩

theorem mapM_eq_ok_map {l : List α} {f : α → Except ε β} {g : α → β}
    (h : ∀ x ∈ l, f x = .ok (g x)) : l.mapM f = .ok (l.map g) := by
  rw [mapM_eq_ok, List.forall₂_map_right_iff, List.forall₂_same]
  exact h

/-- A map whose every element returns returns, with what holds of each. -/
theorem exists_mapM {P : α → β → Prop} {l : List α} {f : α → Except ε β}
    (h : ∀ a ∈ l, ∃ b, f a = .ok b ∧ P a b) : ∃ ys, l.mapM f = .ok ys ∧ List.Forall₂ P l ys := by
  induction l with
  | nil => exact ⟨[], rfl, .nil⟩
  | cons a l ih =>
    obtain ⟨b, hb, hp⟩ := h a (by simp)
    obtain ⟨ys, hys, hall⟩ := ih fun x hx => h x (by simp [hx])
    refine ⟨b :: ys, ?_, .cons hp hall⟩
    rw [List.mapM_cons, hb, ok_bind, hys, ok_bind]
    rfl

/-- A fold that returned went through every element. -/
theorem exists_of_foldlM_eq_ok {l : List α} {f : β → α → Except ε β} {b b' : β}
    (h : l.foldlM f b = .ok b') {x : α} (hx : x ∈ l) : ∃ a a', f a x = .ok a' := by
  induction l generalizing b with
  | nil => cases hx
  | cons y l ih =>
    rw [List.foldlM_cons, bind_eq_ok] at h
    obtain ⟨b₁, h1, h2⟩ := h
    rcases List.mem_cons.mp hx with rfl | hx
    · exact ⟨b, b₁, h1⟩
    · exact ih h2 hx

/-! ## Invariants of a loop -/

/-- What every step of a fold preserves, a fold that returned preserves. -/
theorem foldlM_invariant {P : β → Prop} {l : List α} {f : β → α → Except ε β} {b b' : β} (h0 : P b)
    (hstep : ∀ b a b', P b → f b a = .ok b' → P b') (h : l.foldlM f b = .ok b') : P b' := by
  induction l generalizing b with
  | nil =>
    obtain rfl := Except.ok.inj h
    exact h0
  | cons a l ih =>
    rw [List.foldlM_cons, bind_eq_ok] at h
    obtain ⟨b₁, h1, h2⟩ := h
    exact ih (hstep b a b₁ h0 h1) h2

/-- A fold whose every step returns, with the state after each first part of the list known. -/
theorem foldlM_eq_ok_of_step {l : List α} {f : β → α → Except ε β} {s : List α → β}
    (h : ∀ done x rest, l = done ++ x :: rest → f (s done) x = .ok (s (done ++ [x]))) :
    l.foldlM f (s []) = .ok (s l) := by
  -- from any point of the list on
  have hfrom : ∀ rest done, l = done ++ rest → rest.foldlM f (s done) = .ok (s l) := by
    intro rest
    induction rest with
    | nil =>
      intro done hl
      rw [hl, List.append_nil]
      rfl
    | cons x rest ih =>
      intro done hl
      rw [List.foldlM_cons, h done x rest hl, ok_bind]
      apply ih
      rw [hl, List.append_assoc, List.singleton_append]
  exact hfrom l [] rfl

/-- A loop over `0, …, n - 1` whose state before each step is known, and that may throw on the
way. -/
theorem foldlM_range_cases {P : ε → Prop} {n : Nat} {f : β → Nat → Except ε β} {s : Nat → β}
    (h : ∀ j < n, f (s j) j = .ok (s (j + 1)) ∨ ∃ e, P e ∧ f (s j) j = .error e) :
    (List.range n).foldlM f (s 0) = .ok (s n) ∨
      ∃ e, P e ∧ (List.range n).foldlM f (s 0) = .error e := by
  induction n with
  | zero => exact .inl rfl
  | succ n ih =>
    rw [List.range_succ, List.foldlM_append]
    rcases ih fun j hj => h j (by omega) with hok | ⟨e, he, herr⟩
    · rw [hok, ok_bind]
      rcases h n (by omega) with hstep | ⟨e, he, hstep⟩
      · left
        rw [List.foldlM_cons, hstep, ok_bind]
        rfl
      · right
        refine ⟨e, he, ?_⟩
        rw [List.foldlM_cons, hstep, error_bind]
    · right
      refine ⟨e, he, ?_⟩
      rw [herr, error_bind]

/-- Two computations that return the same values. What they throw may differ. -/
theorem toOption_eq_of_ok_iff {x y : Except ε α} (h : ∀ a, x = .ok a ↔ y = .ok a) :
    x.toOption = y.toOption := by
  cases x with
  | ok a => rw [(h a).mp rfl]
  | error e =>
    cases y with
    | ok a => exact absurd ((h a).mpr rfl) (by simp)
    | error e' => rfl

end CudaqQec.Checked
