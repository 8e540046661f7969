import ResDB.Library.Session
import ResDB.Library.Table

/-! The tables of the TPC-C database, as `createTables` lays them out, and the statements by which
`TpccExecutor` changes them. A `REAL` column holds values of a type `R`. A column that no
transaction uses is left out; foreign keys are not enforced, as in SQLite. -/
namespace ResDB.Tpcc

structure Warehouse (R : Type) where
  id : Int
  tax : R
  ytd : R

structure District (R : Type) where
  wId : Int
  id : Int
  tax : R
  ytd : R
  nextOId : Int

structure Customer (R : Type) where
  wId : Int
  dId : Int
  id : Int
  first : String
  middle : String
  last : String
  credit : String
  discount : R
  balance : R
  data : String

structure Order where
  wId : Int
  dId : Int
  id : Int
  cId : Int
  entryD : String
  carrierId : Option Int
  olCnt : Int
  allLocal : Int

structure NewOrder where
  wId : Int
  dId : Int
  oId : Int

structure OrderLine (R : Type) where
  wId : Int
  dId : Int
  oId : Int
  number : Int
  iId : Int
  supplyWId : Int
  quantity : Int
  amount : R
  deliveryD : String

structure Stock where
  wId : Int
  iId : Int
  quantity : Int
  data : String

structure Item (R : Type) where
  id : Int
  name : String
  price : R
  data : String

structure History (R : Type) where
  cDId : Int
  cWId : Int
  cId : Int
  dId : Int
  wId : Int
  date : String
  amount : R
  data : String

section Keys
variable {R : Type}

def District.key (d : District R) : Int × Int := (d.wId, d.id)

def Customer.key (c : Customer R) : Int × Int × Int := (c.wId, c.dId, c.id)

def Order.key (o : Order) : Int × Int × Int := (o.wId, o.dId, o.id)

def NewOrder.key (n : NewOrder) : Int × Int × Int := (n.wId, n.dId, n.oId)

def OrderLine.order (l : OrderLine R) : Int × Int × Int := (l.wId, l.dId, l.oId)

def OrderLine.key (l : OrderLine R) : (Int × Int × Int) × Int := (l.order, l.number)

def Stock.key (s : Stock) : Int × Int := (s.wId, s.iId)

end Keys

/-- `HISTORY` has no primary key. -/
structure Database (R : Type) where
  warehouse : Table (Warehouse.id (R := R)) := ∅
  district : Table (District.key (R := R)) := ∅
  customer : Table (Customer.key (R := R)) := ∅
  orders : Table Order.key := ∅
  newOrder : Table NewOrder.key := ∅
  orderLine : Table (OrderLine.key (R := R)) := ∅
  stock : Table Stock.key := ∅
  item : Table (Item.id (R := R)) := ∅
  history : List (History R) := []

namespace Database
variable {R : Type} (db : Database R)

def setNextOId (w d next : Int) : Database R :=
  { db with
    district := db.district.update (fun row => row.key = (w, d))
      (fun row => { row with nextOId := next }) (fun _ => rfl) }

def setStock (w i quantity : Int) : Database R :=
  { db with
    stock := db.stock.update (fun row => row.key = (w, i))
      (fun row => { row with quantity := quantity }) (fun _ => rfl) }

def deleteNewOrder (w d o : Int) : Database R :=
  { db with newOrder := db.newOrder.delete (fun row => row.key = (w, d, o)) }

def setCarrier (w d o carrier : Int) : Database R :=
  { db with
    orders := db.orders.update (fun row => row.key = (w, d, o))
      (fun row => { row with carrierId := some carrier }) (fun _ => rfl) }

def setDelivery (w d o : Int) (date : String) : Database R :=
  { db with
    orderLine := db.orderLine.update (fun row => row.order = (w, d, o))
      (fun row => { row with deliveryD := date }) (fun _ => rfl) }

section Money
variable [Add R]

def payWarehouse (w : Int) (amount : R) : Database R :=
  { db with
    warehouse := db.warehouse.update (fun row => row.id = w)
      (fun row => { row with ytd := row.ytd + amount }) (fun _ => rfl) }

def payDistrict (w d : Int) (amount : R) : Database R :=
  { db with
    district := db.district.update (fun row => row.key = (w, d))
      (fun row => { row with ytd := row.ytd + amount }) (fun _ => rfl) }

def addBalance (w d c : Int) (amount : R) : Database R :=
  { db with
    customer := db.customer.update (fun row => row.key = (w, d, c))
      (fun row => { row with balance := row.balance + amount }) (fun _ => rfl) }

def addBalanceData (w d c : Int) (amount : R) (data : String) : Database R :=
  { db with
    customer := db.customer.update (fun row => row.key = (w, d, c))
      (fun row => { row with balance := row.balance + amount, data := data }) (fun _ => rfl) }

end Money

/-- The customers with a last name, `ORDER BY C_FIRST`. -/
def named (last : String) (w d : Int) : List (Customer R) :=
  (db.customer.rows.filter (fun c => c.last = last ∧ c.dId = d ∧ c.wId = w)).insertionSort
    (fun a b => a.first ≤ b.first)

def pending (w d : Int) : List Int :=
  (db.newOrder.rows.filter (fun n => n.dId = d ∧ n.wId = w)).map (fun n => n.oId)

def linesOf (o : Int × Int × Int) : List (OrderLine R) :=
  db.orderLine.rows.filter (fun l => l.order = o)

/-- `ORDER BY O_ID DESC LIMIT 1`. -/
def lastOrder (w d c : Int) : Option Order :=
  ((db.orders.rows.filter (fun o => o.dId = d ∧ o.wId = w ∧ o.cId = c)).insertionSort
    (fun a b => b.id ≤ a.id)).head?

/-- `COUNT(DISTINCT S_I_ID)` of the items on recent lines of a district that run low. -/
def lowStock (w d next threshold : Int) : ℕ :=
  ((db.stock.rows.filter (fun s => s.wId = w ∧ s.quantity < threshold ∧
    ∃ l ∈ db.orderLine.rows, l.wId = w ∧ l.dId = d ∧ l.oId < next ∧ next - 20 ≤ l.oId ∧
      l.iId = s.iId)).map (fun s => s.iId)).dedup.length

end Database
end ResDB.Tpcc
