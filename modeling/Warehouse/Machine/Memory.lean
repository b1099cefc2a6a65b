import Mathlib.Logic.Function.Basic
import Mathlib.Data.Nat.Notation
import Mathlib.Order.MinMax
import Mathlib.Data.List.Nodup
import Mathlib.Data.List.Perm.Basic

/-!
# Memory with an allocator

Blocks at addresses.  What the allocator will answer is part of the memory: an address, or a
refusal.  An address where a block is live is no answer of an allocator, and is read as a refusal;
the address of a block that was freed may be given out again.

* `Memory`, `Prog`       the memory, and programs over it, which may fault;
* `alloc`, `store`, `free`   the accesses; `store_of_block`, `free_of_block`;
* `alloc_cases`          what an allocation does; `Supply`, the answers that are no refusals;
* `Grown`                what a call that allocates does; `Grown.trans`, `Grown.released`;
* `deref`                a pointer that must not be NULL;
* `bind_of_ok`           a program, step by step;
* `Released`             what a call that releases blocks does; `Released.trans`;
* `Ends`                 a program with a bound on its loops ends with a result when the bound is
                         large enough; `Ends.bind`, `Ends.unique`.
-/

namespace Machine

/-- the live blocks, and what the allocator will answer -/
structure Memory (ν : Type) where
  block : ℕ → Option ν
  answers : List (Option ℕ)

namespace Memory

inductive Fault
  | null
  | load (address : ℕ)
  | store (address : ℕ)
  | free (address : ℕ)
  /-- a loop went on beyond its bound -/
  | bound
deriving DecidableEq

abbrev Prog (ν : Type) := StateT (Memory ν) (Except Fault)

variable {ν β γ : Type}

/-! ## accesses -/

/-- a new block with its first contents, or NULL -/
def alloc (v : ν) : Prog ν (Option ℕ) := fun m =>
  match m.answers with
  | [] => .ok (none, m)
  | none :: rest => .ok (none, ⟨m.block, rest⟩)
  | some a :: rest =>
    if (m.block a).isNone then .ok (some a, ⟨Function.update m.block a (some v), rest⟩)
    else .ok (none, ⟨m.block, rest⟩)

def store (a : ℕ) (v : ν) : Prog ν Unit := fun m =>
  match m.block a with
  | some _ => .ok ((), ⟨Function.update m.block a (some v), m.answers⟩)
  | none => .error (.store a)

def free (a : ℕ) : Prog ν Unit := fun m =>
  match m.block a with
  | some _ => .ok ((), ⟨Function.update m.block a none, m.answers⟩)
  | none => .error (.free a)

def deref : Option ℕ → Prog ν ℕ
  | some a => pure a
  | none => throw .null

/-! ## programs -/

variable {m m' : Memory ν} {a : ℕ} {v w : ν} {b : β}

theorem bind_of_ok {x : Prog ν β} (h : x m = .ok (b, m')) (f : β → Prog ν γ) :
    (x >>= f) m = f b m' := by
  show (x m >>= fun r => f r.1 r.2) = f b m'
  rw [h]
  rfl

@[simp] theorem bind_apply (x : Prog ν β) (f : β → Prog ν γ) (m : Memory ν) :
    (x >>= f) m = (x m).bind fun r => f r.1 r.2 := rfl

@[simp] theorem map_apply (x : Prog ν β) (f : β → γ) (m : Memory ν) :
    (f <$> x) m = (x m).map fun r => (f r.1, r.2) := by
  show (x m >>= fun r => pure (f r.1, r.2)) = _
  cases x m <;> rfl

@[simp] theorem ok_bind (r : β) (f : β → Except Fault γ) : (Except.ok r).bind f = f r := rfl

@[simp] theorem ok_map (r : β) (f : β → γ) :
    (Except.ok r : Except Fault β).map f = .ok (f r) := rfl

@[simp] theorem pure_apply (b : β) (m : Memory ν) : (pure b : Prog ν β) m = .ok (b, m) := rfl

theorem store_of_block (h : m.block a = some w) :
    store a v m = .ok ((), ⟨Function.update m.block a (some v), m.answers⟩) := by
  unfold store
  rw [h]

theorem free_of_block (h : m.block a = some w) :
    free a m = .ok ((), ⟨Function.update m.block a none, m.answers⟩) := by
  unfold free
  rw [h]

/-! ## allocation -/

/-- the next `k` allocations are granted -/
def Supply (m : Memory ν) (k : ℕ) : Prop :=
  ∃ (as : List ℕ) (rest : List (Option ℕ)), m.answers = as.map some ++ rest ∧ as.length = k ∧ as.Nodup ∧ ∀ a ∈ as, m.block a = none

theorem Supply.mono {k j : ℕ} (h : Supply m (k + j)) : Supply m k := by
  obtain ⟨as, rest, heq, hlen, hd, hfree⟩ := h
  refine ⟨as.take k, (as.drop k).map some ++ rest, ?_, ?_, hd.sublist (List.take_sublist ..),
    fun a ha => hfree a (List.mem_of_mem_take ha)⟩
  · rw [← List.append_assoc, ← List.map_append, List.take_append_drop, heq]
  · rw [List.length_take]
    omega

theorem Supply.congr {k : ℕ} (h : Supply m k) (ha : m'.answers = m.answers)
    (hb : ∀ a, m.block a = none → m'.block a = none) : Supply m' k := by
  obtain ⟨as, rest, heq, hlen, hd, hfree⟩ := h
  exact ⟨as, rest, ha.trans heq, hlen, hd, fun a ha => hb a (hfree a ha)⟩

/-- an allocation is refused and leaves the blocks alone, or gives out an address that was free -/
theorem alloc_cases (v : ν) (m : Memory ν) :
    (∃ m', alloc v m = .ok (none, m') ∧ m'.block = m.block ∧ ¬ Supply m 1) ∨
      ∃ a m', alloc v m = .ok (some a, m') ∧ m.block a = none ∧
        m'.block = Function.update m.block a (some v) ∧
        ∀ k, Supply m (1 + k) → Supply m' k := by
  obtain ⟨block, answers⟩ := m
  cases answers with
  | nil =>
    refine Or.inl ⟨_, rfl, rfl, ?_⟩
    rintro ⟨as, rest, heq, hlen, -, -⟩
    obtain ⟨a, rfl⟩ := List.length_eq_one_iff.mp hlen
    cases heq
  | cons o rest =>
    cases o with
    | none =>
      refine Or.inl ⟨_, rfl, rfl, ?_⟩
      rintro ⟨as, rest', heq, hlen, -, -⟩
      obtain ⟨a, rfl⟩ := List.length_eq_one_iff.mp hlen
      cases heq
    | some a =>
      cases ha : block a with
      | none =>
        refine Or.inr ⟨a, ⟨Function.update block a (some v), rest⟩, ?_, ha, rfl, ?_⟩
        · show (if (block a).isNone then _ else _) = _
          rw [ha]
          rfl
        · rintro k ⟨as, rest', heq, hlen, hd, hfree⟩
          cases as with
          | nil =>
            rw [List.length_nil] at hlen
            omega
          | cons b as =>
            cases heq
            rw [List.length_cons] at hlen
            obtain ⟨hnot, hd⟩ := List.nodup_cons.mp hd
            refine ⟨as, rest', rfl, by omega, hd, fun c hc => ?_⟩
            have hca : c ≠ a := fun h => hnot (h ▸ hc)
            exact (Function.update_of_ne hca ..).trans (hfree c (List.mem_cons_of_mem _ hc))
      | some w =>
        refine Or.inl ⟨⟨block, rest⟩, ?_, rfl, ?_⟩
        · show (if (block a).isNone then _ else _) = _
          rw [ha]
          rfl
        · rintro ⟨as, rest', heq, hlen, -, hfree⟩
          obtain ⟨b, rfl⟩ := List.length_eq_one_iff.mp hlen
          cases heq
          have hnone : block a = none := hfree a (List.mem_cons_self ..)
          rw [ha] at hnone
          cases hnone

/-- these blocks are new, and nothing else happened to the memory -/
structure Grown (m m' : Memory ν) (X : List ℕ) : Prop where
  nodup : X.Nodup
  fresh : ∀ a ∈ X, m.block a = none
  live : ∀ a ∈ X, m'.block a ≠ none
  kept : ∀ a, a ∉ X → m'.block a = m.block a

namespace Grown

variable {m'' : Memory ν} {X Y : List ℕ}

theorem refl (m : Memory ν) : Grown m m [] :=
  ⟨List.nodup_nil, fun _ h => absurd h List.not_mem_nil, fun _ h => absurd h List.not_mem_nil,
    fun _ _ => rfl⟩

theorem known (h : Grown m m' X) (ha : m.block a ≠ none) : m'.block a = m.block a :=
  h.kept a fun hX => ha (h.fresh a hX)

theorem trans (h : Grown m m' X) (h' : Grown m' m'' Y) : Grown m m'' (X ++ Y) where
  nodup := List.nodup_append.mpr ⟨h.nodup, h'.nodup, fun a ha b hb hab =>
    h.live a ha (h'.fresh a (hab ▸ hb))⟩
  fresh := by
    intro a ha
    rcases List.mem_append.mp ha with ha | ha
    · exact h.fresh a ha
    · rw [← h.kept a fun hX => h.live a hX (h'.fresh a ha)]
      exact h'.fresh a ha
  live := by
    intro a ha
    rcases List.mem_append.mp ha with ha | ha
    · rw [h'.known (h.live a ha)]
      exact h.live a ha
    · exact h'.live a ha
  kept := by
    intro a ha
    obtain ⟨hX, hY⟩ := not_or.mp (mt List.mem_append.mpr ha)
    rw [h'.kept a hY, h.kept a hX]

theorem perm (h : Grown m m' X) (hXY : X.Perm Y) : Grown m m' Y where
  nodup := hXY.nodup_iff.mp h.nodup
  fresh := fun a ha => h.fresh a (hXY.mem_iff.mpr ha)
  live := fun a ha => h.live a (hXY.mem_iff.mpr ha)
  kept := fun a ha => h.kept a fun hX => ha (hXY.mem_iff.mp hX)

/-- what is written into a new block does not show -/
theorem congr (h : Grown m m' X) (hX : ∀ a ∈ X, m''.block a ≠ none)
    (hkept : ∀ a, a ∉ X → m''.block a = m'.block a) : Grown m m'' X where
  nodup := h.nodup
  fresh := h.fresh
  live := hX
  kept := fun a ha => (hkept a ha).trans (h.kept a ha)

theorem of_update (hm : m.block a = none) (hm' : m'.block = Function.update m.block a (some v)) :
    Grown m m' [a] where
  nodup := List.nodup_singleton a
  fresh := fun b hb => List.mem_singleton.mp hb ▸ hm
  live := fun b hb => by
    rw [List.mem_singleton.mp hb, hm', Function.update_self]
    exact Option.some_ne_none v
  kept := fun b hb => by
    rw [hm', Function.update_of_ne (fun h => hb (List.mem_singleton.mpr h))]

end Grown

/-! ## release -/

/-- these blocks are released, and nothing else happens to the memory -/
def Released (m m' : Memory ν) (X : List ℕ) : Prop :=
  ∀ a, m'.block a = if a ∈ X then none else m.block a

theorem Released.refl (m : Memory ν) : Released m m [] := fun _ => (if_neg List.not_mem_nil).symm

theorem Released.trans {m'' : Memory ν} {X Y : List ℕ} (h : Released m m' X)
    (h' : Released m' m'' Y) : Released m m'' (X ++ Y) := by
  intro a
  rw [h' a, h a]
  by_cases hX : a ∈ X <;> by_cases hY : a ∈ Y <;> simp [hX, hY]

theorem Released.congr {X Y : List ℕ} (h : Released m m' X) (hXY : ∀ a, a ∈ X ↔ a ∈ Y) :
    Released m m' Y := fun a => (h a).trans (if_congr (hXY a) rfl rfl)

theorem Released.kept {X : List ℕ} (h : Released m m' X) (ha : a ∉ X) : m'.block a = m.block a :=
  (h a).trans (if_neg ha)

/-- blocks that are new and released again -/
theorem Grown.released {m'' : Memory ν} {X : List ℕ} (h : Grown m m' X)
    (h' : Released m' m'' X) : m''.block = m.block := by
  funext a
  rw [h' a]
  split_ifs with hX
  · exact (h.fresh a hX).symm
  · exact h.kept a hX

theorem free_released (h : m.block a ≠ none) : ∃ m', free a m = .ok ((), m') ∧
    Released m m' [a] := by
  obtain ⟨v, hv⟩ := Option.ne_none_iff_exists'.mp h
  refine ⟨_, free_of_block hv, fun b => ?_⟩
  show Function.update m.block a none b = _
  rw [Function.update_apply]
  exact if_congr List.mem_singleton.symm rfl rfl

/-! ## programs with a bound on their loops -/

/-- a program ends with a result, for all bounds that are large enough -/
def Ends (p : ℕ → Prog ν β) (m : Memory ν) (r : β × Memory ν) : Prop :=
  ∃ N, ∀ n ≥ N, p n m = .ok r

theorem Ends.of_eq {p : ℕ → Prog ν β} {r : β × Memory ν} (h : ∀ n, p n m = .ok r) :
    Ends p m r := ⟨0, fun n _ => h n⟩

theorem Ends.bind {p : ℕ → Prog ν β} {f : ℕ → β → Prog ν γ} {r : γ × Memory ν}
    (h : Ends p m (b, m')) (hf : Ends (fun n => f n b) m' r) :
    Ends (fun n => p n >>= f n) m r := by
  obtain ⟨N, h⟩ := h
  obtain ⟨N', hf⟩ := hf
  refine ⟨max N N', fun n hn => ?_⟩
  exact (bind_of_ok (h n (le_of_max_le_left hn)) (f n)).trans (hf n (le_of_max_le_right hn))

/-- there is one result -/
theorem Ends.unique {p : ℕ → Prog ν β} {r r' : β × Memory ν} (h : Ends p m r)
    (h' : Ends p m r') : r = r' := by
  obtain ⟨N, h⟩ := h
  obtain ⟨N', h'⟩ := h'
  have hr := (h (max N N') (le_max_left ..)).symm.trans (h' (max N N') (le_max_right ..))
  exact Except.ok.inj hr

end Memory

end Machine
