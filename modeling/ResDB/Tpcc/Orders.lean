import ResDB.Tpcc.Executor

/-! What every committed transaction keeps of the order tables: each district numbers its orders
from one without a gap, an order has as many lines as it says, and orders are delivered in the
order of their numbers, each of them once. -/
namespace ResDB.Tpcc

theorem bind_eq_ok {ε α β : Type} {x : Except ε α} {f : α → Except ε β} {b : β}
    (ran : (x >>= f) = .ok b) : ∃ a, x = .ok a ∧ f a = .ok b := by
  cases x with
  | error e => cases ran
  | ok a => exact ⟨a, rfl, ran⟩

theorem orThrow_eq_ok {α : Type} {msg : String} {value : Option α} {a : α}
    (ran : orThrow msg value = .ok a) : value = some a := by
  cases value with
  | none => cases ran
  | some found =>
      cases ran
      rfl

variable {R : Type}

/-- The key of each district and the number of its next order. -/
def Database.counters (db : Database R) : List ((Int × Int) × Int) :=
  db.district.rows.map (fun d => (d.key, d.nextOId))

def numbersFrom (first : Int) (count : ℕ) : List Int :=
  (List.range count).map (fun i : ℕ => first + (i : Int))

theorem numbersFrom_succ (first : Int) (count : ℕ) :
    numbersFrom first (count + 1) = first :: numbersFrom (first + 1) count := by
  rw [numbersFrom, numbersFrom, List.range_succ_eq_map, List.map_cons, List.map_map]
  refine congrArg₂ List.cons (add_zero first) (List.map_congr_left ?_)
  intro i _
  rw [Function.comp, Nat.succ_eq_add_one, Nat.cast_add, Nat.cast_one]
  ring

/-- What the tables say of the orders. The counter of a district is an `int` in the source and an
exact number here, so it is one of fewer than 2^31 - 1 orders. The database that the source fills
(counters of 3001, entries of `NEW_ORDER` without an order) is not consistent; one without orders
is. -/
structure Consistent (db : Database R) : Prop where
  /-- A district's orders have the numbers from 1 to its counter, each of them. -/
  numbered : ∀ c ∈ db.counters, 1 ≤ c.2 ∧
    ∀ k, (∃ o ∈ db.orders.rows, o.key = (c.1.1, c.1.2, k)) ↔ 1 ≤ k ∧ k < c.2
  placed : ∀ n ∈ db.newOrder.rows, ∃ o ∈ db.orders.rows, o.key = n.key
  /-- An order has no carrier as long as it stands in `NEW_ORDER`, and no longer. -/
  pending : ∀ o ∈ db.orders.rows,
    (o.carrierId = none ↔ ∃ n ∈ db.newOrder.rows, n.key = o.key)
  /-- The orders of a district that are delivered come before those that are not. -/
  fifo : ∀ o ∈ db.orders.rows, o.carrierId ≠ none →
    ∀ n ∈ db.newOrder.rows, n.wId = o.wId → n.dId = o.dId → o.id < n.oId
  lines : ∀ o ∈ db.orders.rows,
    (db.linesOf o.key).map (fun l => l.number) = numbersFrom 1 o.olCnt.toNat
  owned : ∀ l ∈ db.orderLine.rows, ∃ o ∈ db.orders.rows, o.key = l.order

/-- The orders of the one are those of the other, some of them delivered meanwhile. -/
def Grown (db db' : Database R) : Prop :=
  ∀ o ∈ db.orders.rows, ∃ carrier, { o with carrierId := carrier } ∈ db'.orders.rows ∧
    (o.carrierId ≠ none → carrier = o.carrierId)

theorem Grown.of_subset {db db' : Database R} (kept : ∀ o ∈ db.orders.rows, o ∈ db'.orders.rows) :
    Grown db db' :=
  fun o member => ⟨o.carrierId, kept o member, fun _ => rfl⟩

theorem Grown.trans {db db' db'' : Database R} (first : Grown db db') (second : Grown db' db'') :
    Grown db db'' := by
  intro o member
  obtain ⟨carrier, member', same⟩ := first o member
  obtain ⟨carrier', member'', same'⟩ := second _ member'
  refine ⟨carrier', member'', ?_⟩
  intro delivered
  have still := same delivered
  subst still
  exact same' delivered

theorem Consistent.of_same {db db' : Database R} (consistent : Consistent db)
    (counters : db'.counters = db.counters) (orders : db'.orders = db.orders)
    (newOrder : db'.newOrder = db.newOrder) (orderLine : db'.orderLine = db.orderLine) :
    Consistent db' := by
  obtain ⟨numbered, placed, pending, fifo, lines, owned⟩ := consistent
  unfold Database.linesOf at lines
  refine ⟨?_, ?_, ?_, ?_, ?_, ?_⟩
  · rwa [counters, orders]
  · rwa [newOrder, orders]
  · rwa [newOrder, orders]
  · rwa [newOrder, orders]
  · unfold Database.linesOf
    rwa [orderLine, orders]
  · rwa [orderLine, orders]

theorem counters_setNextOId (db : Database R) (w d next : Int) :
    (db.setNextOId w d next).counters =
      db.counters.map (fun c => if c.1 = (w, d) then (c.1, next) else c) := by
  unfold Database.counters Database.setNextOId Table.update
  rw [List.map_map, List.map_map]
  apply List.map_congr_left
  intro row _
  by_cases hit : row.key = (w, d)
  · simp only [Function.comp, hit, decide_true, if_true]
    rw [← hit]
    rfl
  · simp only [Function.comp, hit, decide_false, Bool.false_eq_true, if_false]

section Payments
variable [Add R] (D : Doubles R)

theorem counters_payDistrict (db : Database R) (w d : Int) (amount : R) :
    (db.payDistrict w d amount).counters = db.counters := by
  unfold Database.counters Database.payDistrict Table.update
  rw [List.map_map]
  apply List.map_congr_left
  intro row _
  dsimp only [Function.comp]
  split <;> rfl

theorem payCustomer_same (t : PaymentTransaction R) (cId : Int) (credit : String)
    (db : Database R) :
    ∃ customer, payCustomer D t cId credit db = { db with customer := customer } := by
  unfold payCustomer
  split
  · exact ⟨_, rfl⟩
  · exact ⟨_, rfl⟩

theorem payment_commit {t : PaymentTransaction R} {db : Database R}
    {o : Outcome (Database R) String} (ran : (payment D t).body db = some o)
    (ending : o.ending = .commit) :
    o.data.counters = db.counters ∧ o.data.orders = db.orders ∧
      o.data.newOrder = db.newOrder ∧ o.data.orderLine = db.orderLine := by
  unfold payment at ran
  dsimp only at ran
  split at ran
  · cases ran
    cases ending
  · split at ran
    · cases ran
    · split at ran
      · cases ran
        cases ending
      · rename_i cId credit last _
        cases ran
        obtain ⟨customer, same⟩ := payCustomer_same D t cId credit
          ((db.payWarehouse t.wId t.hAmount).payDistrict t.wId t.dId t.hAmount)
        rw [same]
        exact ⟨counters_payDistrict (db.payWarehouse t.wId t.hAmount) t.wId t.dId t.hAmount,
          rfl, rfl, rfl⟩

end Payments

section Placing
variable [One R] [Add R] [Sub R] [Mul R] [IntCast R] (D : Doubles R)
variable {t : NewOrderTransaction} {oId : Int} {wTax dTax discount : R}

theorem placeLine_spec {acc next : Placed R} {line : OrderItem}
    (ran : placeLine D t oId wTax dTax discount acc line = .ok next) :
    next.number = acc.number + 1 ∧
      next.db = { acc.db with stock := next.db.stock, orderLine := next.db.orderLine } ∧
      ∃ added : OrderLine R, added.order = (t.wId, t.dId, oId) ∧ added.number = acc.number + 1 ∧
        next.db.orderLine.rows = acc.db.orderLine.rows ++ [added] := by
  obtain ⟨item, -, ran⟩ := bind_eq_ok ran
  obtain ⟨stock, -, ran⟩ := bind_eq_ok ran
  obtain ⟨orderLine, inserted, ran⟩ := bind_eq_ok ran
  cases ran
  exact ⟨rfl, rfl, _, rfl, rfl, (Table.insert_eq_some (orThrow_eq_ok inserted)).2⟩

theorem placeLines_spec {lines : List OrderItem} {acc placed : Placed R}
    (ran : lines.foldlM (placeLine D t oId wTax dTax discount) acc = .ok placed) :
    placed.db = { acc.db with stock := placed.db.stock, orderLine := placed.db.orderLine } ∧
      ∃ added : List (OrderLine R), (∀ l ∈ added, l.order = (t.wId, t.dId, oId)) ∧
        added.map (fun l => l.number) = numbersFrom (acc.number + 1) lines.length ∧
        placed.db.orderLine.rows = acc.db.orderLine.rows ++ added := by
  induction lines generalizing acc with
  | nil =>
      cases ran
      exact ⟨rfl, [], fun l member => absurd member List.not_mem_nil, rfl,
        (List.append_nil _).symm⟩
  | cons line rest ih =>
      rw [List.foldlM_cons] at ran
      obtain ⟨next, first, ran⟩ := bind_eq_ok ran
      obtain ⟨number, same, line', order, numbered, rows⟩ := placeLine_spec D first
      obtain ⟨same', added, orders, numbers, rows'⟩ := ih ran
      refine ⟨?_, line' :: added, List.forall_mem_cons.mpr ⟨order, orders⟩, ?_, ?_⟩
      · rw [same', same]
      · rw [List.map_cons, numbers, numbered, number, List.length_cons, numbersFrom_succ]
      · rw [rows', rows, List.append_assoc, List.singleton_append]

structure OrderPlaced (t : NewOrderTransaction) (oId : Int) (db db' : Database R) : Prop where
  counter : ((t.wId, t.dId), oId) ∈ db.counters
  counters : db'.counters =
    db.counters.map (fun c => if c.1 = (t.wId, t.dId) then (c.1, oId + 1) else c)
  order : ∃ o : Order, o.key = (t.wId, t.dId, oId) ∧ o.carrierId = none ∧ o.olCnt = t.olCnt ∧
    db'.orders.rows = db.orders.rows ++ [o]
  newOrder : ∃ n : NewOrder, n.key = (t.wId, t.dId, oId) ∧
    db'.newOrder.rows = db.newOrder.rows ++ [n]
  orderLine : ∃ added : List (OrderLine R), (∀ l ∈ added, l.order = (t.wId, t.dId, oId)) ∧
    added.map (fun l => l.number) = numbersFrom 1 t.lines.length ∧
    db'.orderLine.rows = db.orderLine.rows ++ added

theorem placeOrder_spec [Zero R] {db db' : Database R} {text : String}
    (ran : placeOrder D t db = .ok (db', text)) : ∃ oId, OrderPlaced t oId db db' := by
  obtain ⟨customer, -, ran⟩ := bind_eq_ok ran
  obtain ⟨warehouse, -, ran⟩ := bind_eq_ok ran
  obtain ⟨district, found, ran⟩ := bind_eq_ok ran
  obtain ⟨placed, lines, ran⟩ := bind_eq_ok ran
  obtain ⟨orders, ordered, ran⟩ := bind_eq_ok ran
  obtain ⟨newOrder, entered, ran⟩ := bind_eq_ok ran
  cases ran
  obtain ⟨member, key⟩ := Table.find_some (orThrow_eq_ok found)
  obtain ⟨same, added, owner, numbers, rows⟩ := placeLines_spec D lines
  have ordered := (Table.insert_eq_some (orThrow_eq_ok ordered)).2
  have entered := (Table.insert_eq_some (orThrow_eq_ok entered)).2
  rw [same] at ordered entered
  refine ⟨district.nextOId, ?_, ?_, ⟨_, rfl, rfl, rfl, ordered⟩, ⟨_, rfl, entered⟩,
    added, owner, numbers, rows⟩
  · exact List.mem_map.mpr ⟨district, member, by rw [key]⟩
  · rw [same]
    exact counters_setNextOId db t.wId t.dId (district.nextOId + 1)

end Placing

section Kept
variable {t : NewOrderTransaction} {oId : Int} {db db' : Database R}

theorem counter_unique {k : Int × Int} {a b : Int} (first : (k, a) ∈ db.counters)
    (second : (k, b) ∈ db.counters) : a = b := by
  obtain ⟨d, member, same⟩ := List.mem_map.mp first
  obtain ⟨d', member', same'⟩ := List.mem_map.mp second
  cases same
  obtain ⟨key, rfl⟩ := Prod.mk.inj same'
  rw [Table.eq_of_key member member' key.symm]

namespace OrderPlaced

theorem fresh (placed : OrderPlaced t oId db db') (consistent : Consistent db) {o : Order}
    (member : o ∈ db.orders.rows) : o.key ≠ (t.wId, t.dId, oId) := by
  intro same
  have bound := ((consistent.numbered _ placed.counter).2 oId).mp ⟨o, member, same⟩
  exact lt_irrefl _ bound.2

theorem grown (placed : OrderPlaced t oId db db') : Grown db db' := by
  obtain ⟨o, -, -, -, rows⟩ := placed.order
  apply Grown.of_subset
  intro old member
  rw [rows]
  exact List.mem_append_left _ member

theorem numbered (placed : OrderPlaced t oId db db') (consistent : Consistent db) :
    ∀ c ∈ db'.counters, 1 ≤ c.2 ∧
      ∀ k, (∃ o ∈ db'.orders.rows, o.key = (c.1.1, c.1.2, k)) ↔ 1 ≤ k ∧ k < c.2 := by
  obtain ⟨new, key, -, -, rows⟩ := placed.order
  intro c member
  rw [placed.counters] at member
  obtain ⟨⟨⟨w, d⟩, next⟩, counted, rfl⟩ := List.mem_map.mp member
  obtain ⟨positive, numbers⟩ := consistent.numbered _ counted
  rw [rows]
  simp only [List.mem_append, List.mem_singleton, or_and_right, exists_or, exists_eq_left]
  by_cases here : (w, d) = (t.wId, t.dId)
  · cases here
    cases counter_unique counted placed.counter
    simp only [if_true]
    refine ⟨by omega, ?_⟩
    intro k
    rw [numbers k, key]
    simp only [Prod.mk.injEq, true_and]
    omega
  · simp only [here, if_false]
    refine ⟨positive, ?_⟩
    intro k
    have elsewhere : new.key ≠ (w, d, k) := by
      rw [key]
      rintro same
      cases same
      exact here rfl
    rw [numbers k]
    exact or_iff_left elsewhere

theorem linesOf_new (placed : OrderPlaced t oId db db') (consistent : Consistent db) :
    (db'.linesOf (t.wId, t.dId, oId)).map (fun l => l.number) = numbersFrom 1 t.lines.length := by
  obtain ⟨added, owner, numbers, rows⟩ := placed.orderLine
  have before : db.orderLine.rows.filter (fun l => l.order = (t.wId, t.dId, oId)) = [] := by
    apply List.filter_eq_nil_iff.mpr
    intro l member
    obtain ⟨o, ordered, key⟩ := consistent.owned l member
    simpa only [decide_eq_true_eq, ← key] using placed.fresh consistent ordered
  have all : added.filter (fun l => l.order = (t.wId, t.dId, oId)) = added := by
    apply List.filter_eq_self.mpr
    intro l member
    exact decide_eq_true (owner l member)
  rw [Database.linesOf, rows, List.filter_append, before, all, List.nil_append, numbers]

theorem linesOf_old (placed : OrderPlaced t oId db db') {k : Int × Int × Int}
    (other : k ≠ (t.wId, t.dId, oId)) : db'.linesOf k = db.linesOf k := by
  obtain ⟨added, owner, -, rows⟩ := placed.orderLine
  have none : added.filter (fun l => l.order = k) = [] := by
    apply List.filter_eq_nil_iff.mpr
    intro l member
    simpa only [decide_eq_true_eq, owner l member] using Ne.symm other
  rw [Database.linesOf, rows, List.filter_append, none, List.append_nil, Database.linesOf]

theorem consistent (placed : OrderPlaced t oId db db') (consistent : Consistent db)
    (sized : t.lines.length = t.olCnt.toNat) : Consistent db' := by
  obtain ⟨new, key, undelivered, count, orders⟩ := placed.order
  obtain ⟨entry, key', newOrder⟩ := placed.newOrder
  have old : ∀ n ∈ db.newOrder.rows, n.key ≠ (t.wId, t.dId, oId) := by
    intro n member
    obtain ⟨o, ordered, same⟩ := consistent.placed n member
    exact same ▸ placed.fresh consistent ordered
  refine ⟨placed.numbered consistent, ?_, ?_, ?_, ?_, ?_⟩
  · rw [newOrder, orders]
    refine List.forall_mem_append.mpr ⟨?_, List.forall_mem_singleton.mpr ?_⟩
    · intro n member
      obtain ⟨o, ordered, same⟩ := consistent.placed n member
      exact ⟨o, List.mem_append_left _ ordered, same⟩
    · exact ⟨new, List.mem_append_right _ (List.mem_singleton_self new), key.trans key'.symm⟩
  · rw [newOrder, orders]
    refine List.forall_mem_append.mpr ⟨?_, List.forall_mem_singleton.mpr ?_⟩
    · intro o member
      have other : entry.key ≠ o.key :=
        fun same => placed.fresh consistent member (same.symm.trans key')
      rw [consistent.pending o member]
      simp only [List.mem_append, List.mem_singleton, or_and_right, exists_or, exists_eq_left,
        other, or_false]
    · refine iff_of_true undelivered ⟨entry, ?_, key'.trans key.symm⟩
      exact List.mem_append_right _ (List.mem_singleton_self entry)
  · rw [newOrder, orders]
    refine List.forall_mem_append.mpr ⟨?_, List.forall_mem_singleton.mpr ?_⟩
    · intro o member delivered
      refine List.forall_mem_append.mpr ⟨consistent.fifo o member delivered,
        List.forall_mem_singleton.mpr ?_⟩
      intro w d
      obtain ⟨w', d', number⟩ : entry.wId = t.wId ∧ entry.dId = t.dId ∧ entry.oId = oId := by
        simpa only [NewOrder.key, Prod.mk.injEq] using key'
      have bound := ((consistent.numbered _ placed.counter).2 o.id).mp
        ⟨o, member, by rw [Order.key, ← w, ← d, w', d']⟩
      exact number ▸ bound.2
    · exact fun delivered => absurd undelivered delivered
  · rw [orders]
    refine List.forall_mem_append.mpr ⟨?_, List.forall_mem_singleton.mpr ?_⟩
    · intro o member
      rw [placed.linesOf_old (placed.fresh consistent member)]
      exact consistent.lines o member
    · rw [key, count, placed.linesOf_new consistent, sized]
  · obtain ⟨added, owner, -, rows⟩ := placed.orderLine
    rw [rows, orders]
    refine List.forall_mem_append.mpr ⟨?_, ?_⟩
    · intro l member
      obtain ⟨o, ordered, same⟩ := consistent.owned l member
      exact ⟨o, List.mem_append_left _ ordered, same⟩
    · intro l member
      exact ⟨new, List.mem_append_right _ (List.mem_singleton_self new),
        key.trans (owner l member).symm⟩

end OrderPlaced
end Kept

section Delivering
variable {w d oId carrier : Int} {date : String} {db db' : Database R}

/-- The statements of a delivery that change the order tables. -/
def Database.deliver (db : Database R) (w d oId carrier : Int) (date : String) : Database R :=
  ((db.deleteNewOrder w d oId).setCarrier w d oId carrier).setDelivery w d oId date

theorem mem_pending {o : Int} :
    o ∈ db.pending w d ↔ ∃ n ∈ db.newOrder.rows, n.key = (w, d, o) := by
  simp only [Database.pending, List.mem_map, List.mem_filter, decide_eq_true_eq, NewOrder.key,
    Prod.mk.injEq]
  constructor
  · rintro ⟨n, ⟨member, d, w⟩, number⟩
    exact ⟨n, member, w, d, number⟩
  · rintro ⟨n, member, w, d, number⟩
    exact ⟨n, ⟨member, d, w⟩, number⟩

theorem mem_orders_deliver {o : Order} :
    o ∈ (db.deliver w d oId carrier date).orders.rows ↔ ∃ old ∈ db.orders.rows,
      (if old.key = (w, d, oId) then { old with carrierId := some carrier } else old) = o := by
  refine List.mem_map.trans ?_
  simp only [decide_eq_true_eq]
  exact Iff.rfl

theorem mem_newOrder_deliver {n : NewOrder} :
    n ∈ (db.deliver w d oId carrier date).newOrder.rows ↔
      n ∈ db.newOrder.rows ∧ n.key ≠ (w, d, oId) := by
  simp only [Database.deliver, Database.setDelivery, Database.setCarrier, Database.deleteNewOrder,
    Table.mem_delete, decide_eq_false_iff_not, ne_eq]

theorem exists_key_deliver {k : Int × Int × Int} :
    (∃ o ∈ (db.deliver w d oId carrier date).orders.rows, o.key = k) ↔
      ∃ o ∈ db.orders.rows, o.key = k := by
  constructor
  · rintro ⟨o, listed, key⟩
    obtain ⟨old, member, rfl⟩ := mem_orders_deliver.mp listed
    refine ⟨old, member, ?_⟩
    rw [← key]
    split <;> rfl
  · rintro ⟨o, member, key⟩
    refine ⟨_, mem_orders_deliver.mpr ⟨o, member, rfl⟩, ?_⟩
    rw [← key]
    split <;> rfl

theorem linesOf_deliver (k : Int × Int × Int) :
    ((db.deliver w d oId carrier date).linesOf k).map (fun l => l.number) =
      (db.linesOf k).map (fun l => l.number) := by
  unfold Database.linesOf Database.deliver Database.setDelivery Table.update
  rw [List.filter_map, List.map_map]
  refine (congrArg (List.map _) (List.filter_congr ?_)).trans (List.map_congr_left ?_)
  · intro l _
    dsimp only [Function.comp]
    split <;> rfl
  · intro l _
    dsimp only [Function.comp]
    split <;> rfl

structure Oldest (db : Database R) (w d oId : Int) : Prop where
  listed : oId ∈ db.pending w d
  least : ∀ o ∈ db.pending w d, oId ≤ o

theorem Consistent.deliver (consistent : Consistent db) (oldest : Oldest db w d oId)
    (carrier : Int) (date : String) :
    Consistent (db.deliver w d oId carrier date) := by
  refine ⟨?_, ?_, ?_, ?_, ?_, ?_⟩
  · intro c member
    obtain ⟨positive, numbers⟩ := consistent.numbered c member
    refine ⟨positive, ?_⟩
    intro k
    rw [exists_key_deliver]
    exact numbers k
  · intro n member
    exact exists_key_deliver.mpr (consistent.placed n (mem_newOrder_deliver.mp member).1)
  · intro o listed
    obtain ⟨old, member, rfl⟩ := mem_orders_deliver.mp listed
    by_cases here : old.key = (w, d, oId)
    · rw [if_pos here]
      refine iff_of_false (Option.some_ne_none carrier) ?_
      rintro ⟨n, entered, key⟩
      exact (mem_newOrder_deliver.mp entered).2 (key.trans here)
    · rw [if_neg here, consistent.pending old member]
      constructor
      · rintro ⟨n, entered, key⟩
        exact ⟨n, mem_newOrder_deliver.mpr ⟨entered, key ▸ here⟩, key⟩
      · rintro ⟨n, entered, key⟩
        exact ⟨n, (mem_newOrder_deliver.mp entered).1, key⟩
  · intro o listed delivered n left sameW sameD
    obtain ⟨old, member, rfl⟩ := mem_orders_deliver.mp listed
    obtain ⟨entered, other⟩ := mem_newOrder_deliver.mp left
    by_cases here : old.key = (w, d, oId)
    · rw [if_pos here] at sameW sameD ⊢
      cases here
      -- the order was the oldest, and `n` is another one
      have above := oldest.least n.oId (mem_pending.mpr ⟨n, entered, by
        rw [NewOrder.key, sameW, sameD]⟩)
      refine lt_of_le_of_ne above ?_
      intro same
      exact other (by rw [NewOrder.key, sameW, sameD, ← same])
    · rw [if_neg here] at delivered sameW sameD ⊢
      exact consistent.fifo old member delivered n entered sameW sameD
  · intro o listed
    obtain ⟨old, member, rfl⟩ := mem_orders_deliver.mp listed
    rw [linesOf_deliver]
    have line := consistent.lines old member
    split <;> exact line
  · intro l listed
    rw [exists_key_deliver]
    obtain ⟨old, member, rfl⟩ := List.mem_map.mp listed
    have owner := consistent.owned old member
    split <;> exact owner

theorem Consistent.grown_deliver (consistent : Consistent db) (oldest : Oldest db w d oId)
    (carrier : Int) (date : String) :
    Grown db (db.deliver w d oId carrier date) := by
  intro o member
  by_cases here : o.key = (w, d, oId)
  · refine ⟨some carrier, mem_orders_deliver.mpr ⟨o, member, if_pos here⟩, ?_⟩
    intro delivered
    obtain ⟨n, entered, key⟩ := mem_pending.mp oldest.listed
    exact absurd ((consistent.pending o member).mpr ⟨n, entered, key.trans here.symm⟩) delivered
  · exact ⟨o.carrierId, mem_orders_deliver.mpr ⟨o, member, if_neg here⟩, fun _ => rfl⟩

theorem oldest_of_min (least : (db.pending w d).min? = some oId) : Oldest db w d oId := by
  obtain ⟨listed, least⟩ := List.min?_eq_some_iff.mp least
  exact ⟨listed, least⟩

variable [Add R] (D : Doubles R)

theorem deliverDistrict_consistent (t : DeliveryTransaction) (consistent : Consistent db)
    (d : Int) : ∃ db', deliverDistrict D t db d = .ok db' ∧ Consistent db' ∧ Grown db db' := by
  unfold deliverDistrict
  cases least : (db.pending t.wId d).min? with
  | none => exact ⟨db, rfl, consistent, Grown.of_subset (fun _ member => member)⟩
  | some oId =>
      have oldest := oldest_of_min least
      obtain ⟨n, entered, key⟩ := mem_pending.mp oldest.listed
      obtain ⟨o, member, same⟩ := consistent.placed n entered
      have found : (db.deleteNewOrder t.wId d oId).orders.find (t.wId, d, oId) = some o :=
        Table.find_eq_some_iff.mpr ⟨member, same.trans key⟩
      dsimp only
      rw [found]
      refine ⟨_, rfl, ?_, ?_⟩
      · exact (consistent.deliver oldest t.carrierId (cString t.dateTime)).of_same
          rfl rfl rfl rfl
      · exact consistent.grown_deliver oldest t.carrierId (cString t.dateTime)

theorem deliverDistricts_consistent (t : DeliveryTransaction) (districts : List Int)
    (consistent : Consistent db) :
    ∃ db', districts.foldlM (deliverDistrict D t) db = .ok db' ∧ Consistent db' ∧ Grown db db' := by
  induction districts generalizing db with
  | nil => exact ⟨db, rfl, consistent, Grown.of_subset (fun _ member => member)⟩
  | cons d rest ih =>
      obtain ⟨mid, first, kept, grown⟩ := deliverDistrict_consistent D t consistent d
      obtain ⟨db', ran, kept', grown'⟩ := ih kept
      refine ⟨db', ?_, kept', grown.trans grown'⟩
      rw [List.foldlM_cons, first]
      exact ran

theorem delivery_body (t : DeliveryTransaction) (consistent : Consistent db) :
    ∃ db' answer, (delivery D t).body db = some ⟨db', .commit, answer⟩ ∧ Consistent db' ∧
      Grown db db' := by
  obtain ⟨db', ran, kept, grown⟩ := deliverDistricts_consistent D t deliveryDistricts consistent
  refine ⟨db', "DELIVERY by CARRIER " ++ toString t.carrierId ++ " is completed successfully.", ?_,
    kept, grown⟩
  unfold delivery
  dsimp only
  rw [ran]

end Delivering

section Reading
variable (D : Doubles R) {db : Database R} {o : Outcome (Database R) String}

theorem orderStatusOf_data (t : OrderStatusTransaction) (c : Customer R) :
    (orderStatusOf D t c db).data = db := by
  unfold orderStatusOf
  split <;> rfl

theorem orderStatus_data {t : OrderStatusTransaction}
    (ran : (orderStatus D t).body db = some o) : o.data = db := by
  unfold orderStatus at ran
  dsimp only at ran
  repeat' split at ran
  all_goals cases ran
  · rfl
  · rfl
  · exact orderStatusOf_data D t _
  · rfl
  · exact orderStatusOf_data D t _

theorem stockLevel_data {t : StockLevelTransaction} (ran : (stockLevel t).body db = some o) :
    o.data = db := by
  unfold stockLevel at ran
  dsimp only at ran
  split at ran
  · cases ran
    rfl
  · cases ran
    rfl

end Reading

section Scripts
variable [Zero R] [One R] [Add R] [Sub R] [Mul R] [IntCast R] (D : Doubles R)

theorem lines_length {t : NewOrderTransaction} (starts : (newOrder D t).starts = true) :
    t.lines.length = t.olCnt.toNat := by
  have fits : 0 ≤ t.olCnt ∧ t.items.length ≤ t.olCnt := of_decide_eq_true starts
  rw [NewOrderTransaction.lines, List.length_append, List.length_replicate]
  omega

theorem newOrder_commit {t : NewOrderTransaction} {db : Database R}
    {o : Outcome (Database R) String} (starts : (newOrder D t).starts = true)
    (consistent : Consistent db) (ran : (newOrder D t).body db = some o)
    (ending : o.ending = .commit) : Consistent o.data ∧ Grown db o.data := by
  have sized := lines_length D starts
  unfold newOrder at ran
  dsimp only at ran
  split at ran
  · rename_i db' summary done
    cases ran
    obtain ⟨oId, placed⟩ := placeOrder_spec D done
    exact ⟨placed.consistent consistent sized, placed.grown⟩
  · cases ran
    cases ending

theorem script_commit (t : TpccTransaction R) {db : Database R}
    {o : Outcome (Database R) String} (starts : (script D t).starts = true)
    (consistent : Consistent db) (ran : (script D t).body db = some o)
    (ending : o.ending = .commit) : Consistent o.data ∧ Grown db o.data := by
  have same (data : o.data = db) : Consistent o.data ∧ Grown db o.data :=
    data.symm ▸ ⟨consistent, Grown.of_subset (fun _ member => member)⟩
  cases t with
  | newOrder t => exact newOrder_commit D starts consistent ran ending
  | payment t =>
      obtain ⟨counters, orders, newOrder, orderLine⟩ := payment_commit D ran ending
      exact ⟨consistent.of_same counters orders newOrder orderLine,
        Grown.of_subset (fun _ member => orders.symm ▸ member)⟩
  | orderStatus t => exact same (orderStatus_data D ran)
  | delivery t =>
      obtain ⟨db', answer, ran', kept, grown⟩ := delivery_body D t consistent
      cases ran.symm.trans ran'
      exact ⟨kept, grown⟩
  | stockLevel t => exact same (stockLevel_data ran)

theorem serve_of_batch {batch : List (Option (TpccTransaction R))} {s s' : Session (Database R)}
    {answers : List String} (ran : executeTPCCBatch D s batch = some (s', answers)) :
    ∃ served, Script.serve (script D) s batch.reduceOption = some (s', served) := by
  induction batch generalizing s answers with
  | nil =>
      cases ran
      exact ⟨[], rfl⟩
  | cons request rest ih =>
      cases request with
      | none =>
          obtain ⟨⟨last, later⟩, served, same⟩ := Option.map_eq_some_iff.mp ran
          cases same
          exact ih served
      | some t =>
          obtain ⟨⟨mid, answer⟩, called, ran⟩ := Option.bind_eq_some_iff.mp ran
          obtain ⟨⟨last, later⟩, served, same⟩ := Option.map_eq_some_iff.mp ran
          cases same
          obtain ⟨later, tail⟩ := ih served
          exact ⟨_, Script.serve_cons called tail⟩

/-- Whatever transactions a batch has and however each of them ends, the durable order tables
stay consistent, and an order that is delivered stays as it is. -/
theorem orders_stay_consistent {batch : List (Option (TpccTransaction R))}
    {s s' : Session (Database R)} {answers : List String} (consistent : Consistent s.durable)
    (ran : executeTPCCBatch D s batch = some (s', answers)) :
    Consistent s'.durable ∧ Grown s.durable s'.durable := by
  obtain ⟨_, served⟩ := serve_of_batch D ran
  refine Script.serve_invariant (fun db => Consistent db ∧ Grown s.durable db) ?_
    ⟨consistent, Grown.of_subset (fun _ member => member)⟩ served
  rintro t db o starts ⟨kept, grown⟩ body ending
  obtain ⟨kept', grown'⟩ := script_commit D t starts kept body ending
  exact ⟨kept', grown.trans grown'⟩

end Scripts

section Sample

/-- Whole numbers in the place of the `REAL` values. -/
def sampleDoubles : Doubles ℤ := ⟨List.sum, toString, toString⟩

/-- One warehouse with one district, one customer, one item and no orders yet. -/
def sampleDatabase : Database ℤ where
  warehouse := ⟨[⟨1, 0, 0⟩], List.nodup_singleton _⟩
  district := ⟨[⟨1, 1, 0, 0, 1⟩], List.nodup_singleton _⟩
  customer := ⟨[⟨1, 1, 1, "first", "OE", "BAR", "GC", 0, 0, ""⟩], List.nodup_singleton _⟩
  stock := ⟨[⟨1, 1, 50, ""⟩], List.nodup_singleton _⟩
  item := ⟨[⟨1, "item", 3, ""⟩], List.nodup_singleton _⟩

theorem sampleDatabase_consistent : Consistent sampleDatabase where
  numbered c member := by
    cases List.mem_singleton.mp member
    refine ⟨le_rfl, ?_⟩
    intro k
    refine iff_of_false ?_ (fun bound => absurd (lt_of_lt_of_le bound.2 bound.1) (lt_irrefl _))
    rintro ⟨o, member, -⟩
    cases member
  placed n member := by cases member
  pending o member := by cases member
  fifo o member := by cases member
  lines o member := by cases member
  owned l member := by cases member

def sampleOrder : TpccTransaction ℤ := .newOrder ⟨1, 1, 1, 1, [⟨1, 1, 5⟩], "now"⟩

theorem orders_stay_consistent_sample : ∃ s' answers,
    executeTPCCBatch sampleDoubles (.closed sampleDatabase)
        [some sampleOrder, none, some (.delivery ⟨1, 7, "later"⟩)] = some (s', answers) ∧
      s'.durable.orders.rows.map (fun o => o.carrierId) = [some 7] ∧
      Consistent s'.durable ∧ Grown sampleDatabase s'.durable := by
  obtain ⟨⟨s', answers⟩, ran, carriers⟩ := (Option.any_eq_true _ _).mp
    (show (executeTPCCBatch sampleDoubles (.closed sampleDatabase)
        [some sampleOrder, none, some (.delivery ⟨1, 7, "later"⟩)]).any
      (fun p => p.1.durable.orders.rows.map (fun o => o.carrierId) = [some 7]) = true by
      decide +kernel)
  exact ⟨s', answers, ran, of_decide_eq_true carriers,
    orders_stay_consistent sampleDoubles (s := .closed sampleDatabase) sampleDatabase_consistent
      ran⟩

end Sample
end ResDB.Tpcc
