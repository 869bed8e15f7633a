import Mathlib.Data.List.Forall2
import Mathlib.Data.Nat.Digits.Lemmas

/-!
# Texts that can be read back

An encoder writes a value as a list of letters. What it wrote can be told from what follows if the value
and the rest are determined by the whole text. That may depend on what follows: a number is delimited by
the first letter that is no digit, a list of items by one that begins no item.

* `ReadsBack R T f`: values written by `f` in front of a text in `T` are determined up to `R`.
* `ReadsBack.and`, `ReadsBack.framed`, `ReadsBack.flatMap`, `ReadsBack.option`: it composes as texts do.
* `reads_decimal`, `reads_counted`: numbers, and texts with their length in front.
-/

namespace CudaqQec

variable {α γ β : Type}

/-- What `f` wrote in front of a text in `T` can be read back, up to `R`. -/
structure ReadsBack (R : α → α → Prop) (T : List β → Prop) (f : α → List β) : Prop where
  respects : ∀ a b, R a b → f a = f b
  unique : ∀ a b s t, T s → T t → f a ++ s = f b ++ t → R a b ∧ s = t

namespace ReadsBack

variable {R R₁ R₂ : α → α → Prop} {T T₁ T₂ : List β → Prop} {f g : α → List β}

theorem eq_iff (h : ReadsBack R T f) (hT : T []) (a b : α) : f a = f b ↔ R a b := by
  constructor
  · intro he
    exact (h.unique a b [] [] hT hT (by rw [he])).1
  · exact h.respects a b

theorem comap (h : ReadsBack R T f) (p : γ → α) :
    ReadsBack (fun a b => R (p a) (p b)) T (fun a => f (p a)) where
  respects a b := h.respects (p a) (p b)
  unique a b := h.unique (p a) (p b)

/-- A text that stands for two values, if the second delimits the first. -/
theorem and (h₁ : ReadsBack R₁ T₁ f) (h₂ : ReadsBack R₂ T₂ g) (hT : ∀ a s, T₂ s → T₁ (g a ++ s)) :
    ReadsBack (fun a b => R₁ a b ∧ R₂ a b) T₂ (fun a => f a ++ g a) where
  respects a b hR := by rw [h₁.respects a b hR.1, h₂.respects a b hR.2]
  unique a b s t hs ht he := by
    rw [List.append_assoc, List.append_assoc] at he
    obtain ⟨hR₁, he⟩ := h₁.unique a b _ _ (hT a s hs) (hT b t ht) he
    obtain ⟨hR₂, he⟩ := h₂.unique a b s t hs ht he
    exact ⟨⟨hR₁, hR₂⟩, he⟩

/-- Between a fixed text before and one behind that delimits it, a value can be read anywhere. -/
theorem framed (h : ReadsBack R T f) (pre post : List β) (hpost : ∀ s, T (post ++ s)) :
    ReadsBack R (fun _ => True) (fun a => pre ++ (f a ++ post)) where
  respects a b hR := by rw [h.respects a b hR]
  unique a b s t _ _ he := by
    rw [List.append_assoc, List.append_assoc, List.append_assoc, List.append_assoc] at he
    have he := List.append_cancel_left he
    obtain ⟨hR, he⟩ := h.unique a b _ _ (hpost s) (hpost t) he
    exact ⟨hR, List.append_cancel_left he⟩

/-- Items one after the other, up to a text that begins with none. -/
theorem flatMap (h : ReadsBack R (fun _ => True) f) :
    ReadsBack (List.Forall₂ R) (fun s => ∀ a u, f a ++ u ≠ s) (fun l : List α => l.flatMap f) where
  respects l m hR := by
    induction hR with
    | nil => rfl
    | cons hab _ ih => rw [List.flatMap_cons, List.flatMap_cons, h.respects _ _ hab, ih]
  unique l m s t hs ht he := by
    induction l generalizing m with
    | nil =>
      cases m with
      | nil => exact ⟨.nil, he⟩
      | cons b m =>
        rw [List.flatMap_cons, List.append_assoc] at he
        exact absurd he.symm (hs b _)
    | cons a l ih =>
      cases m with
      | nil =>
        rw [List.flatMap_cons, List.append_assoc] at he
        exact absurd he (ht a _)
      | cons b m =>
        rw [List.flatMap_cons, List.flatMap_cons, List.append_assoc, List.append_assoc] at he
        obtain ⟨hR, he⟩ := h.unique a b _ _ trivial trivial he
        obtain ⟨hall, he⟩ := ih m he
        exact ⟨.cons hR hall, he⟩

theorem option (h : ReadsBack R T f) (mark : List β)
    (hmark : ∀ a s t, T s → T t → f a ++ s ≠ mark ++ t) :
    ReadsBack (Option.Rel R) T (fun o : Option α => o.elim mark f) where
  respects o p hR := by
    cases hR with
    | some hab => exact h.respects _ _ hab
    | none => rfl
  unique o p s t hs ht he := by
    cases o with
    | none =>
      cases p with
      | none => exact ⟨.none, List.append_cancel_left he⟩
      | some b => exact absurd he.symm (hmark b t s ht hs)
    | some a =>
      cases p with
      | none => exact absurd he (hmark a s t hs ht)
      | some b =>
        obtain ⟨hR, he⟩ := h.unique a b s t hs ht he
        exact ⟨.some hR, he⟩

/-- A finer relation with the same texts. -/
theorem congr {R' : α → α → Prop} (h : ReadsBack R T f) (hR : ∀ a b, R' a b ↔ R a b) : ReadsBack R' T f where
  respects a b hab := h.respects a b ((hR a b).mp hab)
  unique a b s t hs ht he := by
    obtain ⟨hab, he⟩ := h.unique a b s t hs ht he
    exact ⟨(hR a b).mpr hab, he⟩

theorem mono {T' : List β → Prop} (h : ReadsBack R T f) (hT : ∀ s, T' s → T s) : ReadsBack R T' f where
  respects := h.respects
  unique a b s t hs ht := h.unique a b s t (hT s hs) (hT t ht)

end ReadsBack

/-! ## Numbers -/

def IsDigit (c : UInt8) : Prop := 48 ≤ c.toNat ∧ c.toNat ≤ 57

def Delimited (s : List UInt8) : Prop := ∀ c ∈ s.head?, ¬ IsDigit c

def decimal (n : Nat) : List UInt8 :=
  if n = 0 then [48] else ((Nat.digits 10 n).map fun d => UInt8.ofNat (48 + d)).reverse

theorem toNat_digit {d : Nat} (h : d < 10) : (UInt8.ofNat (48 + d)).toNat = 48 + d := by
  rw [UInt8.toNat_ofNat']
  omega

theorem decimal_digits (n : Nat) : ∀ c ∈ decimal n, IsDigit c := by
  intro c hc
  unfold decimal at hc
  split at hc
  · rw [List.mem_singleton.mp hc]
    exact ⟨by decide, by decide⟩
  · rw [List.mem_reverse, List.mem_map] at hc
    obtain ⟨d, hd, rfl⟩ := hc
    have hlt := Nat.digits_lt_base (by decide : 1 < 10) hd
    rw [IsDigit, toNat_digit hlt]
    omega

theorem decimal_ne_nil (n : Nat) : decimal n ≠ [] := by
  unfold decimal
  split
  · simp
  · next h => simpa [Nat.digits_eq_nil_iff_eq_zero] using h

/-- The number can be computed back from its digits. -/
theorem ofDigits_decimal (n : Nat) :
    Nat.ofDigits 10 ((decimal n).reverse.map fun c => c.toNat - 48) = n := by
  unfold decimal
  split
  · next hn =>
    subst hn
    decide
  · have hmap : (Nat.digits 10 n).map ((fun c : UInt8 => c.toNat - 48) ∘ fun d =>
        UInt8.ofNat (48 + d)) = (Nat.digits 10 n).map id := by
      apply List.map_congr_left
      intro d hd
      have hlt := Nat.digits_lt_base (by decide : 1 < 10) hd
      change (UInt8.ofNat (48 + d)).toNat - 48 = d
      rw [toNat_digit hlt]
      omega
    rw [List.reverse_reverse, List.map_map, hmap, List.map_id, Nat.ofDigits_digits]

theorem decimal_inj {m n : Nat} (h : decimal m = decimal n) : m = n := by
  rw [← ofDigits_decimal m, h, ofDigits_decimal]

/-- Two runs of digits in front of delimited texts are the same run. -/
theorem digits_unique {x y s t : List UInt8} (hx : ∀ c ∈ x, IsDigit c) (hy : ∀ c ∈ y, IsDigit c)
    (hs : Delimited s) (ht : Delimited t) (h : x ++ s = y ++ t) : x = y ∧ s = t := by
  induction x generalizing y with
  | nil =>
    cases y with
    | nil => exact ⟨rfl, h⟩
    | cons d y =>
      rw [List.nil_append] at h
      rw [h] at hs
      exact absurd (hy d (List.mem_cons_self ..)) (hs d rfl)
  | cons c x ih =>
    cases y with
    | nil =>
      rw [List.nil_append] at h
      rw [← h] at ht
      exact absurd (hx c (List.mem_cons_self ..)) (ht c rfl)
    | cons d y =>
      obtain ⟨hcd, h⟩ := List.cons.inj h
      obtain ⟨hxy, hst⟩ := ih (fun c hc => hx c (List.mem_cons_of_mem _ hc))
        (fun c hc => hy c (List.mem_cons_of_mem _ hc)) h
      exact ⟨by rw [hcd, hxy], hst⟩

theorem reads_decimal : ReadsBack Eq Delimited decimal where
  respects a b h := congrArg decimal h
  unique a b s t hs ht h := by
    obtain ⟨hab, hst⟩ := digits_unique (decimal_digits a) (decimal_digits b) hs ht h
    exact ⟨decimal_inj hab, hst⟩

def signedDecimal (z : Int) : List UInt8 :=
  if z < 0 then 45 :: decimal z.natAbs else decimal z.natAbs

theorem decimal_head (n : Nat) : ∃ c x, decimal n = c :: x ∧ IsDigit c := by
  cases h : decimal n with
  | nil => exact absurd h (decimal_ne_nil n)
  | cons c x =>
    refine ⟨c, x, rfl, decimal_digits n c ?_⟩
    rw [h]
    exact List.mem_cons_self ..

theorem decimal_ne_dash (n : Nat) (s t : List UInt8) : decimal n ++ s ≠ 45 :: t := by
  obtain ⟨c, x, hc, hdigit⟩ := decimal_head n
  rw [hc, List.cons_append]
  intro h
  rw [(List.cons.inj h).1] at hdigit
  exact absurd hdigit.1 (by decide)

theorem reads_signedDecimal : ReadsBack Eq Delimited signedDecimal where
  respects a b h := congrArg signedDecimal h
  unique a b s t hs ht h := by
    unfold signedDecimal at h
    split at h
    · split at h
      · obtain ⟨he, hst⟩ := reads_decimal.unique _ _ s t hs ht (List.cons.inj h).2
        exact ⟨by omega, hst⟩
      · exact absurd h.symm (decimal_ne_dash _ _ _)
    · split at h
      · exact absurd h (decimal_ne_dash _ _ _)
      · obtain ⟨he, hst⟩ := reads_decimal.unique _ _ s t hs ht h
        exact ⟨by omega, hst⟩

/-! ## Texts with their length in front -/

def counted (separator : UInt8) (x : List UInt8) : List UInt8 :=
  decimal x.length ++ separator :: x

theorem reads_counted {separator : UInt8} (h : ¬ IsDigit separator) :
    ReadsBack Eq (fun _ => True) (counted separator) where
  respects a b h := congrArg (counted separator) h
  unique x y s t _ _ he := by
    unfold counted at he
    rw [List.append_assoc, List.append_assoc] at he
    have hdelim : ∀ z : List UInt8, Delimited (separator :: z) := by
      intro z c hc
      rw [List.head?_cons] at hc
      rw [← Option.some.inj hc]
      exact h
    obtain ⟨hlen, he⟩ := reads_decimal.unique _ _ _ _ (hdelim _) (hdelim _) he
    exact List.append_inj (List.cons.inj he).2 hlen

end CudaqQec
