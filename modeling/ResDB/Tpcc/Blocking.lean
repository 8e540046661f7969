import ResDB.Tpcc.Orders

/-! What becomes of a TPC-C transaction that does not get to its `COMMIT`. It leaves nothing in
the durable database; but two of the executor's error paths return without a `ROLLBACK`, and the
transaction they leave open keeps out everything after it until a query comes. -/
namespace ResDB.Tpcc
variable {R : Type}

/-- A transaction that returns without an end: a payment to a warehouse that does not exist, a
query of the orders of a name that no customer has. -/
def Abandons (db : Database R) : TpccTransaction R → Prop
  | .payment t => db.warehouse.Fresh t.wId
  | .orderStatus t => t.byName = true ∧ db.named (cString t.cLast) t.wId t.dId = []
  | .newOrder _ | .delivery _ | .stockLevel _ => False

section Payment
variable [Add R] (D : Doubles R) {db : Database R} {o : Outcome (Database R) String}

theorem payWarehouse_find_eq_none (w : Int) (amount : R) :
    (db.payWarehouse w amount).warehouse.find w = none ↔ db.warehouse.Fresh w := by
  unfold Database.payWarehouse
  rw [Table.find_eq_none_iff, Table.fresh_update]

theorem payment_leaves_iff {t : PaymentTransaction R} (ran : (payment D t).body db = some o) :
    o.ending = .leave ↔ Abandons db (.payment t) := by
  refine Iff.trans ?_ (payWarehouse_find_eq_none t.wId t.hAmount)
  unfold payment at ran
  dsimp only at ran
  cases found : (db.payWarehouse t.wId t.hAmount).warehouse.find t.wId with
  | none =>
      rw [found] at ran
      cases ran
      exact iff_of_true rfl rfl
  | some warehouse =>
      rw [found] at ran
      refine iff_of_false ?_ (Option.some_ne_none warehouse)
      intro left
      dsimp only at ran
      split at ran
      · cases ran
      · split at ran
        · cases ran
          cases left
        · cases ran
          cases left

end Payment

section OrderStatus
variable (D : Doubles R) {db : Database R} {o : Outcome (Database R) String}

theorem orderStatusOf_ending (t : OrderStatusTransaction) (c : Customer R) :
    (orderStatusOf D t c db).ending ≠ .leave := by
  unfold orderStatusOf
  split
  · exact Ending.noConfusion
  · exact Ending.noConfusion

theorem orderStatus_leaves_iff {t : OrderStatusTransaction}
    (ran : (orderStatus D t).body db = some o) :
    o.ending = .leave ↔ Abandons db (.orderStatus t) := by
  unfold orderStatus at ran
  dsimp only at ran
  split at ran
  · rename_i byName
    split at ran
    · rename_i none
      cases ran
      exact iff_of_true rfl ⟨byName, List.eq_nil_of_length_eq_zero none⟩
    · rename_i found
      refine iff_of_false ?_ (fun abandons => found (congrArg List.length abandons.2))
      split at ran
      · cases ran
        exact Ending.noConfusion
      · cases ran
        exact orderStatusOf_ending D t _
  · rename_i byId
    refine iff_of_false ?_ (fun abandons => byId abandons.1)
    split at ran
    · cases ran
      exact Ending.noConfusion
    · cases ran
      exact orderStatusOf_ending D t _

theorem stockLevel_ends {t : StockLevelTransaction} (ran : (stockLevel t).body db = some o) :
    o.ending ≠ .leave := by
  unfold stockLevel at ran
  dsimp only at ran
  split at ran
  · cases ran
    exact Ending.noConfusion
  · cases ran
    exact Ending.noConfusion

end OrderStatus

section Scripts
variable [Zero R] [One R] [Add R] [Sub R] [Mul R] [IntCast R] (D : Doubles R)
variable {db : Database R} {o : Outcome (Database R) String}

theorem newOrder_ends {t : NewOrderTransaction} (ran : (newOrder D t).body db = some o) :
    o.ending ≠ .leave := by
  unfold newOrder at ran
  dsimp only at ran
  split at ran
  · cases ran
    exact Ending.noConfusion
  · cases ran
    exact Ending.noConfusion

theorem script_leaves_iff (t : TpccTransaction R) (consistent : Consistent db)
    (ran : (script D t).body db = some o) : o.ending = .leave ↔ Abandons db t := by
  cases t with
  | newOrder t => exact iff_of_false (newOrder_ends D ran) id
  | payment t => exact payment_leaves_iff D ran
  | orderStatus t => exact orderStatus_leaves_iff D ran
  | delivery t =>
      obtain ⟨db', answer, committed, -⟩ := delivery_body D t consistent
      cases ran.symm.trans committed
      exact iff_of_false Ending.noConfusion id
  | stockLevel t => exact iff_of_false (stockLevel_ends ran) id

theorem starts_of_heals {t : TpccTransaction R} (heals : (script D t).heals = true) :
    (script D t).starts = true := by
  cases t with
  | newOrder t => cases heals
  | payment t | orderStatus t | delivery t | stockLevel t => rfl

/-- A transaction is left open by the two error paths and by nothing else. Then every payment,
every delivery and every new order with counts that the process survives is refused, up to the
next query; that is refused too, and the database is again as it was before. -/
theorem blocked_until_query (consistent : Consistent db) (t : TpccTransaction R)
    {s : Session (Database R)} {answer : String}
    (called : executeTransaction D (.closed db) t = some (s, answer)) :
    (s.saved ≠ none ↔ Abandons db t) ∧
      (Abandons db t → ∀ (writes : List (TpccTransaction R)) (query : TpccTransaction R),
        (∀ w ∈ writes, (script D w).starts = true ∧ (script D w).heals = false) →
        (script D query).heals = true →
        Script.serve (script D) s (writes ++ [query]) =
          some (.closed db, (writes ++ [query]).map (fun r => (script D r).refused))) := by
  obtain ⟨-, o, body, rfl, rfl⟩ := Script.call_closed_eq_some called
  have leaves := script_leaves_iff D t consistent body
  constructor
  · rw [Script.saved_leaveWith, ← leaves]
    split
    · exact iff_of_true (Option.some_ne_none db) ‹_›
    · exact iff_of_false (fun left => left rfl) ‹_›
  · intro abandons writes query stay heals
    have busy : (Script.leaveWith db o).saved = some db := by
      rw [Script.saved_leaveWith, if_pos (leaves.mpr abandons)]
    have starts : ∀ r ∈ writes ++ [query], (script D r).starts = true :=
      List.forall_mem_append.mpr ⟨fun w member => (stay w member).1,
        List.forall_mem_singleton.mpr (starts_of_heals D heals)⟩
    exact Script.serve_blocked busy starts (fun w member => (stay w member).2) heals

end Scripts

/-- The orders of a name that nobody has are asked for; the order after that is refused. -/
theorem blocked_until_query_sample : ∃ s answer,
    executeTransaction sampleDoubles (.closed sampleDatabase)
        (.orderStatus ⟨1, 1, 0, "ATION", true⟩) = some (s, answer) ∧
      (s.saved ≠ none ↔ Abandons sampleDatabase (.orderStatus ⟨1, 1, 0, "ATION", true⟩)) ∧
      Script.serve (script sampleDoubles) s
          ([sampleOrder] ++ [TpccTransaction.stockLevel ⟨1, 1, 10⟩]) =
        some (.closed sampleDatabase, ([sampleOrder] ++ [TpccTransaction.stockLevel ⟨1, 1, 10⟩]).map
          (fun r => (script sampleDoubles r).refused)) := by
  have named : sampleDatabase.named (cString "ATION") 1 1 = [] := by decide +kernel
  have called : executeTransaction sampleDoubles (.closed sampleDatabase)
      (.orderStatus ⟨1, 1, 0, "ATION", true⟩) =
      some (⟨sampleDatabase, some sampleDatabase⟩,
        "No customers found with the given last name.") := by
    unfold executeTransaction script orderStatus
    rw [Script.call_closed rfl]
    dsimp only
    rw [named]
    rfl
  obtain ⟨leaves, blocked⟩ :=
    blocked_until_query sampleDoubles sampleDatabase_consistent _ called
  refine ⟨_, _, called, leaves, blocked ⟨rfl, named⟩ _ _ ?_ rfl⟩
  intro w member
  cases List.mem_singleton.mp member
  exact ⟨rfl, rfl⟩

end ResDB.Tpcc
