import Mathlib.Data.List.Infix
import Mathlib.Data.List.Induction

/-!
# Runs of a deterministic machine

A machine is a total function `step : σ → α → σ`; what the environment decides is part of the
operation `α`.  A run is a list of operations.

* `run`                  the state after a run;
* `Along C`              every operation of the run is taken in a state where `C` allows it;
* `Always P`             `P` holds in every state of the run, the first and the last included;
* `always_of_along`      the invariant rule, with a side condition on the steps;
* `always_iff_along`     the exact rule: if one step keeps `P` exactly when `C` allows it, then
                         `P` holds throughout a run exactly when `C` allows every step;
                         `always_iff_along_of_invariant` the same over an invariant;
* `run_comm`             a change of the state that the operations carry along;
* `along_iff_along`      two side conditions that agree under an invariant;
                         `always_and_along` a property of the states as a side condition;
* `lastWord`, `observe_run`   an observation that some operations set and all others leave is what
                         the last of the former set it to;
* `related_run`, `simulation`   two machines with related states; with equal answers, they succeed at
                         the same operations.
-/

namespace Machine

variable {σ α : Type*}

/-! ## runs -/

section
variable (step : σ → α → σ)

/-- the state after a run -/
def run (s : σ) (ops : List α) : σ := ops.foldl step s

@[simp] theorem run_nil (s : σ) : run step s [] = s := rfl
@[simp] theorem run_cons (s : σ) (a : α) (as : List α) :
    run step s (a :: as) = run step (step s a) as := rfl
theorem run_append (s : σ) (as bs : List α) :
    run step s (as ++ bs) = run step (run step s as) bs := List.foldl_append ..
@[simp] theorem run_snoc (s : σ) (as : List α) (a : α) :
    run step s (as ++ [a]) = step (run step s as) a := by
  rw [run_append, run_cons, run_nil]

/-- every operation of the run is taken in a state where `C` allows it -/
def Along (C : σ → α → Prop) : σ → List α → Prop
  | _, [] => True
  | s, a :: as => C s a ∧ Along C (step s a) as

/-- `P` in every state of the run, the first and the last included -/
def Always (P : σ → Prop) : σ → List α → Prop
  | s, [] => P s
  | s, a :: as => P s ∧ Always P (step s a) as

end

section
variable {step : σ → α → σ} {C L : σ → α → Prop} {P Q : σ → Prop}

@[simp] theorem along_nil (s : σ) : Along step C s [] := trivial
@[simp] theorem along_cons (s : σ) (a : α) (as : List α) :
    Along step C s (a :: as) ↔ C s a ∧ Along step C (step s a) as := Iff.rfl
@[simp] theorem always_nil (s : σ) : Always step P s [] ↔ P s := Iff.rfl
@[simp] theorem always_cons (s : σ) (a : α) (as : List α) :
    Always step P s (a :: as) ↔ P s ∧ Always step P (step s a) as := Iff.rfl

theorem along_and {s : σ} {ops : List α} :
    Along step (fun s a => C s a ∧ L s a) s ops ↔ Along step C s ops ∧ Along step L s ops := by
  induction ops generalizing s with
  | nil => simp
  | cons a as ih =>
    rw [along_cons, along_cons, along_cons, ih]
    tauto

theorem along_true (s : σ) (as : List α) : Along step (fun _ _ => True) s as := by
  induction as generalizing s with
  | nil => trivial
  | cons a as ih => exact ⟨trivial, ih (step s a)⟩

theorem along_snoc {s : σ} {as : List α} {a : α} :
    Along step C s (as ++ [a]) ↔ Along step C s as ∧ C (run step s as) a := by
  induction as generalizing s with
  | nil => simp
  | cons b as ih =>
    rw [List.cons_append, along_cons, along_cons, ih, run_cons, and_assoc]

/-- a change of the state that every operation of a run carries along -/
theorem run_comm {f : σ → σ} {as : List α} (h : ∀ a ∈ as, ∀ s, step (f s) a = f (step s a))
    (s : σ) : run step (f s) as = f (run step s as) := by
  induction as generalizing s with
  | nil => rfl
  | cons a as ih =>
    rw [run_cons, h a (List.mem_cons_self ..), ih fun b hb => h b (List.mem_cons_of_mem _ hb),
      run_cons]

/-! ## what holds throughout a run -/

theorem Always.head {s : σ} {ops : List α} (h : Always step P s ops) : P s := by
  cases ops with
  | nil => exact h
  | cons a as => exact h.1

theorem Always.last {s : σ} {ops : List α} (h : Always step P s ops) : P (run step s ops) := by
  induction ops generalizing s with
  | nil => exact h
  | cons a as ih => exact ih h.2

theorem always_mono (h : ∀ s, P s → Q s) {s : σ} {ops : List α}
    (hP : Always step P s ops) : Always step Q s ops := by
  induction ops generalizing s with
  | nil => exact h s hP
  | cons a as ih => exact ⟨h s hP.1, ih hP.2⟩

theorem always_append {s : σ} {as bs : List α} :
    Always step P s (as ++ bs) ↔ Always step P s as ∧ Always step P (run step s as) bs := by
  induction as generalizing s with
  | nil => exact ⟨fun h => ⟨h.head, h⟩, And.right⟩
  | cons a as ih => rw [List.cons_append, always_cons, always_cons, ih, run_cons, and_assoc]

/-- the states of a run are the states after its prefixes -/
theorem always_iff_initial_runs (s : σ) (ops : List α) :
    Always step P s ops ↔ ∀ pre, pre <+: ops → P (run step s pre) := by
  induction ops generalizing s with
  | nil => simp
  | cons a as ih =>
    rw [always_cons, ih]
    constructor
    · rintro ⟨h0, h⟩ pre hpre
      cases pre with
      | nil => exact h0
      | cons b bs =>
        obtain ⟨rfl, hbs⟩ := List.cons_prefix_cons.mp hpre
        exact h bs hbs
    · intro h
      exact ⟨h [] List.nil_prefix,
        fun pre hpre => h (a :: pre) (List.cons_prefix_cons.mpr ⟨rfl, hpre⟩)⟩

/-- a side condition that follows from another one where an invariant holds -/
theorem along_mono (h : ∀ s a, P s → C s a → L s a) {s : σ} {ops : List α}
    (hP : Always step P s ops) (hC : Along step C s ops) : Along step L s ops := by
  induction ops generalizing s with
  | nil => trivial
  | cons a as ih => exact ⟨h s a hP.1 hC.1, ih hP.2 hC.2⟩

/-- what holds in every state holds after every operation -/
theorem along_of_always {Q : α → Prop} {s : σ} {ops : List α} (hQ : ∀ a ∈ ops, Q a)
    (h : Always step P s ops) : Along step (fun s a => Q a ∧ P (step s a)) s ops := by
  induction ops generalizing s with
  | nil => trivial
  | cons a as ih =>
    refine ⟨⟨hQ a (List.mem_cons_self ..), h.2.head⟩, ?_⟩
    exact ih (fun a ha => hQ a (List.mem_cons_of_mem _ ha)) h.2

/-- the invariant rule, for runs whose steps are all allowed -/
theorem always_of_along (hstep : ∀ s a, P s → C s a → P (step s a)) {s : σ} (h : P s)
    {ops : List α} (hC : Along step C s ops) : Always step P s ops := by
  induction ops generalizing s with
  | nil => exact h
  | cons a as ih => exact ⟨h, ih (hstep s a h hC.1) hC.2⟩

/-- **The exact rule.**  Among the runs whose steps satisfy `L`, and over an invariant `I` of the
good ones: if one step from a good state stays good exactly when `C` allows it, then a run stays
good exactly when `C` allows all its steps. -/
theorem always_iff_along_of_invariant {I : σ → Prop}
    (hinv : ∀ s a, I s → P s → L s a → I (step s a))
    (hstep : ∀ s a, I s → P s → L s a → (P (step s a) ↔ C s a)) {s : σ} (hI : I s) (h : P s)
    {ops : List α} (hL : Along step L s ops) :
    Always step P s ops ↔ Along step C s ops := by
  induction ops generalizing s with
  | nil => exact ⟨fun _ => trivial, fun _ => h⟩
  | cons a as ih =>
    obtain ⟨hLa, hLas⟩ := hL
    have hnextI : I (step s a) := hinv s a hI h hLa
    rw [always_cons, along_cons]
    constructor
    · rintro ⟨-, has⟩
      exact ⟨(hstep s a hI h hLa).mp has.head, (ih hnextI has.head hLas).mp has⟩
    · rintro ⟨hc, has⟩
      have hnext : P (step s a) := (hstep s a hI h hLa).mpr hc
      exact ⟨h, (ih hnextI hnext hLas).mpr has⟩

/-- the exact rule where no other invariant is needed -/
theorem always_iff_along (hstep : ∀ s a, P s → L s a → (P (step s a) ↔ C s a)) {s : σ} (h : P s)
    {ops : List α} (hL : Along step L s ops) :
    Always step P s ops ↔ Along step C s ops :=
  always_iff_along_of_invariant (I := fun _ => True) (fun _ _ _ _ _ => trivial)
    (fun s a _ => hstep s a) trivial h hL

/-- a property of the states and a condition on the steps, as one condition on the steps -/
theorem always_and_along {s : σ} {ops : List α} : Always step P s ops ∧ Along step C s ops ↔
    P s ∧ Along step (fun s a => C s a ∧ P (step s a)) s ops := by
  induction ops generalizing s with
  | nil => simp
  | cons a as ih =>
    rw [always_cons, along_cons, along_cons, and_assoc]
    have has := ih (s := step s a)
    constructor
    · rintro ⟨hs, hP, hc, hC⟩
      obtain ⟨hnext, hrest⟩ := has.mp ⟨hP, hC⟩
      exact ⟨hs, ⟨hc, hnext⟩, hrest⟩
    · rintro ⟨hs, ⟨hc, hnext⟩, hrest⟩
      obtain ⟨hP, hC⟩ := has.mpr ⟨hnext, hrest⟩
      exact ⟨hs, hP, hc, hC⟩

/-- two side conditions that agree wherever an invariant holds, which the second one keeps -/
theorem along_iff_along {A : σ → α → Prop} {I : σ → Prop}
    (hagree : ∀ s a, I s → L s a → (A s a ↔ C s a))
    (hinv : ∀ s a, I s → L s a → C s a → I (step s a)) {s : σ} (h : I s) {ops : List α}
    (hL : Along step L s ops) : Along step A s ops ↔ Along step C s ops := by
  induction ops generalizing s with
  | nil => exact Iff.rfl
  | cons a as ih =>
    obtain ⟨hLa, hLas⟩ := hL
    rw [along_cons, along_cons, hagree s a h hLa]
    exact and_congr_right fun hc => ih (hinv s a h hLa hc) hLas

end

/-! ## the last word -/

/-- the last operation of a history that concerns a matter -/
def lastWord (p : α → Bool) (h : List α) : Option α := (h.filter p).getLast?

theorem lastWord_snoc (p : α → Bool) (h : List α) (a : α) :
    lastWord p (h ++ [a]) = if p a then some a else lastWord p h := by
  unfold lastWord
  rw [List.filter_append]
  by_cases ha : p a
  · rw [List.filter_cons_of_pos ha, List.filter_nil, List.getLast?_concat, if_pos ha]
  · rw [List.filter_cons_of_neg ha, List.filter_nil, List.append_nil, if_neg ha]

/-- what the operations `p` set and all others leave is what the last of them set it to -/
theorem observe_run {β : Type*} {step : σ → α → σ} {f : σ → β} {p : α → Bool} {set : α → β}
    (hstep : ∀ s a, f (step s a) = if p a then set a else f s) (s : σ) (h : List α) :
    f (run step s h) = ((lastWord p h).map set).getD (f s) := by
  induction h using List.reverseRecOn with
  | nil => rfl
  | append_singleton h a ih =>
    rw [run_snoc, hstep, lastWord_snoc]
    split_ifs
    · rfl
    · exact ih

/-! ## machines that answer -/

section
variable {τ : Type*} {step : σ → α → σ} {returned : σ → α → Bool} {step' : τ → α → τ}
  {returned' : τ → α → Bool}

/-- the operations of a run that returned true -/
def successes (step : σ → α → σ) (returned : σ → α → Bool) : σ → List α → List α
  | _, [] => []
  | s, a :: as =>
    if returned s a then a :: successes step returned (step s a) as
    else successes step returned (step s a) as

/-- a relation that the steps of two machines keep, as long as the second machine may take them -/
theorem related_run {R : σ → τ → Prop} {L : τ → α → Prop}
    (hstep : ∀ s t a, R s t → L t a → R (step s a) (step' t a)) {s : σ} {t : τ} (h : R s t)
    {ops : List α} (hL : Along step' L t ops) : R (run step s ops) (run step' t ops) := by
  induction ops generalizing s t with
  | nil => exact h
  | cons a as ih => exact ih (hstep s t a h hL.1) hL.2

/-- A simulation: where the steps of two machines answer alike and keep a relation, as long as the
second machine may take them, the machines stay related and succeed at the same operations. -/
theorem simulation {R : σ → τ → Prop} {L : τ → α → Prop}
    (hstep : ∀ s t a, R s t → L t a → returned s a = returned' t a ∧ R (step s a) (step' t a))
    {s : σ} {t : τ} (h : R s t) {ops : List α} (hL : Along step' L t ops) :
    R (run step s ops) (run step' t ops) ∧
      successes step returned s ops = successes step' returned' t ops := by
  refine ⟨related_run (fun s t a h hL => (hstep s t a h hL).2) h hL, ?_⟩
  induction ops generalizing s t with
  | nil => rfl
  | cons a as ih =>
    obtain ⟨hanswer, hnext⟩ := hstep s t a h hL.1
    rw [successes, successes, hanswer, ih hnext hL.2]

end

end Machine
