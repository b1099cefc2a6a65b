import Warehouse.Machine.Run

/-!
# Components under keys

A machine whose operations each concern one key: an operation reads and writes the component of its
own key, and no other.  What lies under a key is what a view of the state shows there.

* `replies`              what a run answers, operation by operation;
* `Keyed`                such a machine;
* `forKey`               the operations of a run for one key;
* `Keyed.run_forKey`     a key sees of a run its own operations, whatever goes on beside them;
* `SameOrders`           two runs that order the operations of each key alike;
* `Keyed.run_congr`      they leave the same components, and each key gets the same replies;
* `Keyed.beside`         two such machines beside one another are one.
-/

namespace Machine

variable {σ α ρ κ β : Type*}

section
variable (step : σ → α → σ) (answer : σ → α → ρ) (key : α → κ) (view : σ → κ → β)

/-- the operations of a run, each with its answer -/
def replies : σ → List α → List (α × ρ)
  | _, [] => []
  | s, a :: as => (a, answer s a) :: replies (step s a) as

/-- an operation is about the component of its key, and no other -/
structure Keyed : Prop where
  others : ∀ s a k, key a ≠ k → view (step s a) k = view s k
  own : ∀ s t a, view s (key a) = view t (key a) →
    view (step s a) (key a) = view (step t a) (key a)
  answers : ∀ s t a, view s (key a) = view t (key a) → answer s a = answer t a

variable [DecidableEq κ]

/-- the operations of a run for a key -/
def forKey (k : κ) (ops : List α) : List α := ops.filter fun a => decide (key a = k)

/-- the replies of a run for a key -/
def repliesFor (k : κ) (rs : List (α × ρ)) : List (α × ρ) := rs.filter fun r => decide (key r.1 = k)

/-- two runs with the same operations for each key, in the same order -/
def SameOrders (as bs : List α) : Prop := ∀ k, forKey key k as = forKey key k bs

end

section
variable {step : σ → α → σ} {answer : σ → α → ρ} {key : α → κ} {view : σ → κ → β} [DecidableEq κ]

theorem forKey_cons_self (a : α) (as : List α) :
    forKey key (key a) (a :: as) = a :: forKey key (key a) as :=
  List.filter_cons_of_pos (decide_eq_true rfl)

theorem forKey_cons_of_ne {a : α} {k : κ} (h : key a ≠ k) (as : List α) :
    forKey key k (a :: as) = forKey key k as :=
  List.filter_cons_of_neg (by rwa [decide_eq_true_eq])

/-- only the keys that occur need to be looked at -/
theorem sameOrders_of_keys {as bs : List α} (ks : List κ) (hks : ∀ a ∈ as ++ bs, key a ∈ ks)
    (h : ∀ k ∈ ks, forKey key k as = forKey key k bs) : SameOrders key as bs := by
  intro k
  by_cases hk : k ∈ ks
  · exact h k hk
  have hnone : ∀ cs, (∀ a ∈ cs, a ∈ as ++ bs) → forKey key k cs = [] := by
    intro cs hcs
    refine List.filter_eq_nil_iff.mpr fun a ha hka => hk ?_
    rw [← of_decide_eq_true hka]
    exact hks a (hcs a ha)
  rw [hnone as fun a ha => List.mem_append_left _ ha, hnone bs fun a ha => List.mem_append_right _ ha]

namespace Keyed

/-- **A key alone.**  From states that agree under a key, a run and the operations for that key leave
the same component, with the same replies. -/
theorem run_forKey (h : Keyed step answer key view) (k : κ) {s t : σ} (hst : view s k = view t k)
    (ops : List α) : view (run step s ops) k = view (run step t (forKey key k ops)) k ∧
      repliesFor key k (replies step answer s ops) = replies step answer t (forKey key k ops) := by
  induction ops generalizing s t with
  | nil => exact ⟨hst, rfl⟩
  | cons a as ih =>
    by_cases hk : key a = k
    · subst hk
      obtain ⟨hview, hreplies⟩ := ih (h.own s t a hst)
      rw [forKey_cons_self, run_cons, run_cons]
      refine ⟨hview, ?_⟩
      show repliesFor key (key a) ((a, answer s a) :: replies step answer (step s a) as) =
        (a, answer t a) :: replies step answer (step t a) _
      rw [← hreplies, h.answers s t a hst]
      exact List.filter_cons_of_pos (decide_eq_true rfl)
    · obtain ⟨hview, hreplies⟩ := ih ((h.others s a k hk).trans hst)
      rw [forKey_cons_of_ne hk, run_cons]
      refine ⟨hview, ?_⟩
      show repliesFor key k ((a, answer s a) :: replies step answer (step s a) as) = _
      rw [← hreplies]
      exact List.filter_cons_of_neg (by rwa [decide_eq_true_eq])

/-- **Interleavings.** -/
theorem run_congr (h : Keyed step answer key view) (s : σ) {as bs : List α}
    (hab : SameOrders key as bs) (k : κ) :
    view (run step s as) k = view (run step s bs) k ∧
      repliesFor key k (replies step answer s as) = repliesFor key k (replies step answer s bs) := by
  obtain ⟨hva, hra⟩ := h.run_forKey k (s := s) rfl as
  obtain ⟨hvb, hrb⟩ := h.run_forKey k (s := s) rfl bs
  rw [hva, hvb, hra, hrb, hab k]
  exact ⟨rfl, rfl⟩

end Keyed

end

/-! ## two machines -/

section
variable {σ' α' ρ' κ' β' : Type*} (step : σ → α → σ) (step' : σ' → α' → σ') (answer : σ → α → ρ)
  (answer' : σ' → α' → ρ') (key : α → κ) (key' : α' → κ') (view : σ → κ → β) (view' : σ' → κ' → β')

/-- an operation of one of two machines -/
def stepBeside (s : σ × σ') : α ⊕ α' → σ × σ'
  | .inl a => (step s.1 a, s.2)
  | .inr a => (s.1, step' s.2 a)

def answerBeside (s : σ × σ') : α ⊕ α' → ρ ⊕ ρ'
  | .inl a => .inl (answer s.1 a)
  | .inr a => .inr (answer' s.2 a)

def viewBeside (s : σ × σ') : κ ⊕ κ' → β ⊕ β'
  | .inl k => .inl (view s.1 k)
  | .inr k => .inr (view' s.2 k)

variable {step step' answer answer' key key' view view'}

theorem Keyed.beside (h : Keyed step answer key view) (h' : Keyed step' answer' key' view') :
    Keyed (stepBeside step step') (answerBeside answer answer') (Sum.map key key')
      (viewBeside view view') where
  others := by
    rintro s (a | a) (k | k) hk
    · exact congrArg Sum.inl (h.others s.1 a k fun e => hk (congrArg Sum.inl e))
    · rfl
    · rfl
    · exact congrArg Sum.inr (h'.others s.2 a k fun e => hk (congrArg Sum.inr e))
  own := by
    rintro s t (a | a) hst
    · exact congrArg Sum.inl (h.own s.1 t.1 a (Sum.inl.inj hst))
    · exact congrArg Sum.inr (h'.own s.2 t.2 a (Sum.inr.inj hst))
  answers := by
    rintro s t (a | a) hst
    · exact congrArg Sum.inl (h.answers s.1 t.1 a (Sum.inl.inj hst))
    · exact congrArg Sum.inr (h'.answers s.2 t.2 a (Sum.inr.inj hst))

end

end Machine
