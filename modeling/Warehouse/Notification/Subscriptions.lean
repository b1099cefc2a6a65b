import Warehouse.Notification.Model

/-!
# Subscriptions and registrations over whole runs

* `isSubscribed_iff`     a client is subscribed to a type when the last call about the two says so;
* `Registered`           registered with `registerClient`, and not removed since;
* `mem_recipients_step`  what one operation does to the recipients of an alert;
* `recipients_iff`       these are the registered clients as long as only registered clients
                         subscribe.
-/

namespace Hub
open Machine Text

namespace NotificationSystem
open NotificationSubType

/-! ## subscriptions -/

/-- the last call of a run about a client and a type decides -/
theorem isSubscribed_run (h : List NotificationOp) (c : ℤ) (t : NotificationSubType) :
    (run step init h).isSubscribed c t
      = ((lastWord (concerns c t) h).map (subscribes t)).getD false :=
  observe_run (f := fun n => isSubscribed n c t) (fun n op => isSubscribed_step n c t op) init h

/-- what a last word is a word about -/
theorem concerns_of_lastWord {h : List NotificationOp} {c : ℤ} {t : NotificationSubType}
    {op : NotificationOp} (hop : lastWord (concerns c t) h = some op) :
    op ∈ [.registerClient c, .removeClient c, .subscribe c t, .unsubscribe c t] := by
  have hmem : op ∈ h.filter (concerns c t) := List.mem_of_getLast? hop
  exact of_decide_eq_true (List.mem_filter.mp hmem).2

/-- **Subscriptions follow the last word.**  A client is subscribed to a type exactly when the last
call about the two is a subscription, or a registration and the type is one of the defaults; a call
that is not about the two changes nothing. -/
theorem isSubscribed_iff (h : List NotificationOp) (c : ℤ) (t : NotificationSubType) :
    ((run step init h).isSubscribed c t = true ↔
      lastWord (concerns c t) h = some (.subscribe c t) ∨
        lastWord (concerns c t) h = some (.registerClient c) ∧
          (t = ON_ROUTE ∨ t = RECEIVED ∨ t = NO_STOCK)) ∧
    ∀ op, op ∉ [.registerClient c, .removeClient c, .subscribe c t, .unsubscribe c t] →
      (run step init (h ++ [op])).isSubscribed c t = (run step init h).isSubscribed c t := by
  constructor
  · rw [isSubscribed_run]
    cases hl : lastWord (concerns c t) h with
    | none =>
      refine iff_of_false Bool.false_ne_true ?_
      rintro (e | ⟨e, -⟩) <;> cases e
    | some op =>
      show subscribes t op = true ↔ _
      have hop := concerns_of_lastWord hl
      rw [List.mem_cons, List.mem_cons, List.mem_cons, List.mem_singleton] at hop
      obtain rfl | rfl | rfl | rfl := hop
      · show decide (t ∈ DEFAULT_NOTIFICATIONS) = true ↔ _
        simp [DEFAULT_NOTIFICATIONS]
      · simp [subscribes]
      · simp [subscribes]
      · simp [subscribes]
  · intro op hop
    have hno : concerns c t op = false := decide_eq_false hop
    rw [run_snoc, isSubscribed_step, hno]
    rfl

/-! ## registrations -/

/-- the calls that register a client and remove it -/
def registers (c : ℤ) (op : NotificationOp) : Bool :=
  decide (op ∈ [.registerClient c, .removeClient c])

/-- registered with `registerClient` and not removed by a later `removeClient` -/
def Registered (h : List NotificationOp) (c : ℤ) : Prop :=
  lastWord (registers c) h = some (.registerClient c)

theorem registered_snoc (h : List NotificationOp) (c : ℤ) (op : NotificationOp) :
    Registered (h ++ [op]) c ↔
      op = .registerClient c ∨ op ≠ .removeClient c ∧ Registered h c := by
  unfold Registered
  rw [lastWord_snoc]
  by_cases hop : op ∈ [.registerClient c, .removeClient c]
  · have hr : registers c op = true := decide_eq_true hop
    rw [if_pos hr]
    rw [List.mem_cons, List.mem_singleton] at hop
    obtain rfl | rfl := hop <;> simp
  · have hr : ¬ registers c op = true := fun e => hop (of_decide_eq_true e)
    rw [if_neg hr]
    rw [List.mem_cons, List.mem_singleton, not_or] at hop
    simp [hop.1, hop.2]

/-- besides registering and removing, only a subscription changes the recipients -/
theorem mem_recipients_step (n : NotificationSystem) (op : NotificationOp) (c : ℤ) :
    c ∈ (n.step op).recipients ↔
      op = .registerClient c ∨ (∃ t, op = .subscribe c t) ∨
        op ≠ .removeClient c ∧ c ∈ n.recipients := by
  cases op with
  | registerClient c' =>
    show c ∈ (n.registerClient c').recipients ↔ _
    rw [mem_recipients_registerClient]
    simp [eq_comm (a := c)]
  | removeClient c' =>
    show c ∈ (n.removeClient c').recipients ↔ _
    rw [mem_recipients_removeClient]
    simp [eq_comm (a := c)]
  | subscribe c' t =>
    show c ∈ (n.subscribe c' t).recipients ↔ _
    rw [mem_recipients_subscribe]
    simp [eq_comm (a := c)]
  | unsubscribe c' t =>
    show c ∈ (n.unsubscribe c' t).recipients ↔ _
    rw [mem_recipients_unsubscribe]
    simp
  | broadcastAlert s m => simp [step]

/-- the recipients of an alert after a run -/
def AddressesRegistered (h : List NotificationOp) : Prop :=
  ∀ c, c ∈ (run step init h).recipients ↔ Registered h c

/-- a call after which the recipients are still the registered clients -/
theorem addressesRegistered_snoc {h : List NotificationOp} (ih : AddressesRegistered h)
    (op : NotificationOp) :
    AddressesRegistered (h ++ [op]) ↔ ∀ c t, op = .subscribe c t → Registered h c := by
  unfold AddressesRegistered
  constructor
  · intro hall c t hop
    have hmem : c ∈ (run step init (h ++ [op])).recipients := by
      rw [run_snoc, mem_recipients_step]
      exact Or.inr (Or.inl ⟨t, hop⟩)
    have hreg := (registered_snoc h c op).mp ((hall c).mp hmem)
    rw [hop] at hreg
    rcases hreg with e | ⟨-, hreg⟩
    · cases e
    · exact hreg
  · intro hop c
    rw [run_snoc, mem_recipients_step, registered_snoc, ih c]
    refine or_congr_right ⟨fun e => ?_, Or.inr⟩
    rcases e with ⟨t, rfl⟩ | e
    · exact ⟨fun e => (by cases e), hop c t rfl⟩
    · exact e

/-- **The recipients of an alert.**  Throughout a run they are the registered clients exactly when
every subscription in it is made for a client that is registered at that moment. -/
theorem recipients_iff (h : List NotificationOp) :
    (∀ pre, pre <+: h → ∀ c, c ∈ (run step init pre).recipients ↔ Registered pre c) ↔
      ∀ pre c t, pre ++ [.subscribe c t] <+: h → Registered pre c := by
  constructor
  · intro hall pre c t hpre
    have hbefore : AddressesRegistered pre := hall pre ((List.prefix_append _ _).trans hpre)
    exact (addressesRegistered_snoc hbefore _).mp (hall _ hpre) c t rfl
  · intro hsub pre hpre
    show AddressesRegistered pre
    induction pre using List.reverseRecOn with
    | nil => exact fun c => ⟨fun e => (by cases e), fun e => (by cases e)⟩
    | append_singleton pre op ih =>
      have hbefore : AddressesRegistered pre := ih ((List.prefix_append _ _).trans hpre)
      refine (addressesRegistered_snoc hbefore op).mpr fun c t hop => ?_
      exact hsub pre c t (hop ▸ hpre)

/-- a client that subscribes after its removal -/
def lateSubscription : List NotificationOp :=
  [.registerClient 1, .removeClient 1, .subscribe 1 ON_ROUTE]

theorem removed_client_is_addressed :
    ¬ ∀ c, c ∈ (run step init lateSubscription).recipients ↔ Registered lateSubscription c := by
  intro h
  have hmem : (1 : ℤ) ∈ (run step init lateSubscription).recipients := by decide
  have hreg := (h 1).mp hmem
  cases hreg

end NotificationSystem

end Hub
