import ResDB.Tpcc.Database

/-! `TpccExecutor`: the five TPC-C transactions, each a script of SQL statements between a `BEGIN`
and the end its control flow gives it. A statement fails on a primary key that is taken and on
nothing else; a text that is `throw`n where only a `std::exception` is caught ends the process. -/
namespace ResDB.Tpcc

/-- What the executor does with `REAL` values beside adding and multiplying them: `SUM`, the output
with two digits and the default output of a stream. -/
structure Doubles (R : Type) where
  sum : List R → R
  fixed : R → String
  general : R → String

structure OrderItem where
  iId : Int
  supWId : Int
  qty : Int

structure NewOrderTransaction where
  wId : Int
  dId : Int
  cId : Int
  olCnt : Int
  items : List OrderItem
  dateTime : String

structure PaymentTransaction (R : Type) where
  wId : Int
  dId : Int
  cWId : Int
  cDId : Int
  cId : Int
  hAmount : R
  hDate : String
  cLast : String
  byName : Bool

structure OrderStatusTransaction where
  wId : Int
  dId : Int
  cId : Int
  cLast : String
  byName : Bool

structure DeliveryTransaction where
  wId : Int
  carrierId : Int
  dateTime : String

structure StockLevelTransaction where
  wId : Int
  dId : Int
  threshold : Int

inductive TpccTransaction (R : Type) where
  | newOrder (t : NewOrderTransaction)
  | payment (t : PaymentTransaction R)
  | orderStatus (t : OrderStatusTransaction)
  | delivery (t : DeliveryTransaction)
  | stockLevel (t : StockLevelTransaction)

def orThrow {α : Type} (msg : String) : Option α → Except String α
  | some a => .ok a
  | none => .error msg

/-- What `sqlite3_bind_text` takes of a text: it is given as a C string, which ends at a NUL. -/
def cString (text : String) : String := String.ofList (text.toList.takeWhile (fun c => c.toNat ≠ 0))

def setw (width : ℕ) (text : String) : String :=
  String.ofList (List.replicate (width - text.length) ' ') ++ text

section NewOrder

/-- The vectors `ITEMID`, `SUPWARE` and `QTY`, resized to `O_OL_CNT`. -/
def NewOrderTransaction.lines (t : NewOrderTransaction) : List OrderItem :=
  t.items ++ List.replicate (t.olCnt.toNat - t.items.length) ⟨0, 0, 0⟩

def restock (quantity ordered : Int) : Int :=
  if quantity > ordered then quantity - ordered else quantity - ordered + 91

def brand (itemData stockData : String) : String :=
  if "original".toList <:+: itemData.toList ∧ "original".toList <:+: stockData.toList then "B"
  else "G"

variable {R : Type} [Zero R] [One R] [Add R] [Sub R] [Mul R] [IntCast R] (D : Doubles R)

/-- What the loop over the lines of an order has come to. -/
structure Placed (R : Type) where
  db : Database R
  number : Int
  total : R
  allLocal : Int
  text : String

def lineText (number : Int) (line : OrderItem) (item : Item R) (stock : Stock) (amount : R) :
    String :=
  "  Item " ++ toString number ++ ":\n" ++
  "    SUPWARE: " ++ toString line.supWId ++ "\n" ++
  "    ITEMID: " ++ toString line.iId ++ "\n" ++
  "    QTY: " ++ toString line.qty ++ "\n" ++
  "    PRICE: " ++ D.fixed item.price ++ "\n" ++
  "    INAME: " ++ item.name ++ "\n" ++
  "    BG: " ++ brand item.data stock.data ++ "\n" ++
  "    OL_AMOUNT: " ++ D.fixed amount ++ "\n"

/-- One turn of the loop, for a customer with `discount` and the taxes of warehouse and district. -/
def placeLine (t : NewOrderTransaction) (oId : Int) (wTax dTax discount : R) (acc : Placed R)
    (line : OrderItem) : Except String (Placed R) := do
  let number := acc.number + 1
  let item ← orThrow "SQL Error: Invalid item ID." (acc.db.item.find line.iId)
  let stock ← orThrow "SQL Error: Unable to fetch stock details."
    (acc.db.stock.find (line.supWId, line.iId))
  let db := acc.db.setStock line.supWId line.iId (restock stock.quantity line.qty)
  let amount := (line.qty : R) * item.price * (1 + wTax + dTax) * (1 - discount)
  let orderLine ← orThrow "SQL Error: Failed to insert into ORDER_LINE."
    (db.orderLine.insert ⟨t.wId, t.dId, oId, number, line.iId, line.supWId, line.qty, amount,
      "null"⟩)
  return ⟨{ db with orderLine := orderLine }, number, acc.total + amount,
    if line.supWId ≠ t.wId then 0 else acc.allLocal,
    acc.text ++ lineText D number line item stock amount⟩

def orderSummary (t : NewOrderTransaction) (oId : Int) (placed : Placed R) : String :=
  "Order Summary:\n" ++
  "O_ID: " ++ toString oId ++ "\n" ++
  "DATETIME: " ++ t.dateTime ++ "\n" ++
  "O_ALL_LOCAL: " ++ toString placed.allLocal ++ "\n" ++
  "Line Items:\n" ++ placed.text ++
  "TOTAL: " ++ D.fixed placed.total ++ "\n"

/-- The `try` block of `SQLITE3_NEW_ORDER`, up to its `COMMIT`. -/
def placeOrder (t : NewOrderTransaction) (db : Database R) :
    Except String (Database R × String) := do
  let customer ← orThrow "SQL Error: Unable to fetch customer and warehouse details."
    (db.customer.find (t.wId, t.dId, t.cId))
  let warehouse ← orThrow "SQL Error: Unable to fetch customer and warehouse details."
    (db.warehouse.find t.wId)
  let district ← orThrow "SQL Error: Unable to fetch district details."
    (db.district.find (t.wId, t.dId))
  let oId := district.nextOId
  let placed ← t.lines.foldlM
    (placeLine D t oId warehouse.tax district.tax customer.discount)
    ⟨db.setNextOId t.wId t.dId (oId + 1), 0, 0, 1, ""⟩
  let orders ← orThrow "SQL Error: Failed to insert into ORDERS."
    (placed.db.orders.insert ⟨t.wId, t.dId, oId, t.cId, cString t.dateTime, none, t.olCnt,
      placed.allLocal⟩)
  let newOrder ← orThrow "SQL Error: Failed to insert into NEW_ORDER."
    (placed.db.newOrder.insert ⟨t.wId, t.dId, oId⟩)
  return ({ placed.db with orders := orders, newOrder := newOrder }, orderSummary D t oId placed)

/-- `ExecuteNewOrderTransaction` and `SQLITE3_NEW_ORDER`. Before the `BEGIN`, a negative `O_OL_CNT`
cannot be a size, and more items than `O_OL_CNT` are written past the end of the vectors. -/
def newOrder (t : NewOrderTransaction) : Script (Database R) String where
  starts := 0 ≤ t.olCnt ∧ t.items.length ≤ t.olCnt
  body db :=
    match placeOrder D t db with
    | .ok (db', summary) => some ⟨db', .commit, summary⟩
    | .error msg => some ⟨db, .rollback, "Error: " ++ msg⟩
  refused := "Error: Failed to begin transaction."
  heals := false

end NewOrder

/-- SQLite's text for a `BEGIN` inside a transaction. -/
def beginError : String := "cannot start a transaction within a transaction"

section Payment
variable {R : Type} (D : Doubles R)

def createNewData (cId cDId cWId dId wId : Int) (hAmount : R) (cData : String) : String :=
  let head := "| " ++ setw 4 (toString cId) ++ " " ++ setw 2 (toString cDId) ++ " " ++
    setw 4 (toString cWId) ++ " " ++ setw 2 (toString dId) ++ " " ++ setw 4 (toString wId) ++
    " $" ++ setw 7 (D.fixed hAmount) ++ " "
  if head.length < 500 then head ++ String.ofList (cData.toList.take (500 - head.length)) else head

/-- `C_ID`, `C_CREDIT` and `C_LAST` after the customer was looked up: by name the one in the
middle, which the loop over half of the rows ends at; `none` where a row is missing. -/
def payer (t : PaymentTransaction R) (db : Database R) : Option (Int × String × String) :=
  if t.byName then
    let rows := db.named (cString t.cLast) t.wId t.dId
    match (rows.length + rows.length % 2) / 2 with
    | 0 => some (t.cId, "", t.cLast)
    | k + 1 => rows[k]?.map (fun c => (c.id, c.credit, c.last))
  else match db.customer.find (t.cWId, t.cDId, t.cId) with
    | some c => some (t.cId, c.credit, c.last)
    | none => some (t.cId, "", t.cLast)

variable [Add R]

/-- The `UPDATE` of the customer. With bad credit it is the customer of the district that is paid
to, not of the customer's own. -/
def payCustomer (t : PaymentTransaction R) (cId : Int) (credit : String) (db : Database R) :
    Database R :=
  if credit = "BC" then
    let data := ((db.customer.find (t.cWId, t.cDId, cId)).map (fun c => c.data)).getD ""
    db.addBalanceData t.wId t.dId cId t.hAmount
      (cString (createNewData D cId t.cDId t.cWId t.dId t.wId t.hAmount data))
  else db.addBalance t.cWId t.cDId cId t.hAmount

/-- `ExecutePaymentTransaction` and `SQLITE3_PAYMENT`. -/
def payment (t : PaymentTransaction R) : Script (Database R) String where
  body db :=
    let paid := db.payWarehouse t.wId t.hAmount
    match paid.warehouse.find t.wId with
    | none => some ⟨paid, .leave, "SQL Error: Failed to fetch WAREHOUSE data."⟩
    | some _ =>
      let paid := paid.payDistrict t.wId t.dId t.hAmount
      match paid.district.find (t.wId, t.dId) with
      | none => none
      | some _ =>
        match payer t paid with
        | none => some ⟨db, .rollback, "Error: SQL Error: Unable to fetch customer details."⟩
        | some (cId, credit, last) =>
          let paid := payCustomer D t cId credit paid
          some ⟨{ paid with history := paid.history ++
              [⟨t.cDId, t.cWId, cId, t.dId, t.wId, cString t.hDate, t.hAmount, "Payment"⟩] },
            .commit,
            "Payment processed successfully for Customer " ++ toString cId ++ ": " ++ last ++
              ".\n"⟩
  refused := "Failed to begin transaction: " ++ beginError
  heals := false

end Payment

section OrderStatus
variable {R : Type} (D : Doubles R)

def statusLine (l : OrderLine R) : String :=
  "  Item ID: " ++ toString l.iId ++ ", Supply W_ID: " ++ toString l.supplyWId ++
  ", Quantity: " ++ toString l.quantity ++ ", Amount: " ++ D.general l.amount ++
  ", Delivery Date: " ++ l.deliveryD ++ "\n"

/-- The rest of `SQLITE3_ORDER_STATUS` once the customer is known. -/
def orderStatusOf (t : OrderStatusTransaction) (c : Customer R) (db : Database R) :
    Outcome (Database R) String :=
  match db.lastOrder t.wId t.dId c.id with
  | none => ⟨db, .rollback, "Error: SQL Error: Unable to fetch most recent order."⟩
  | some o =>
      ⟨db, .commit,
        "Customer: " ++ c.first ++ " " ++ c.middle ++ " " ++ t.cLast ++
        "\nBalance: " ++ D.general c.balance ++ "\n" ++
        "Most Recent Order: " ++ toString o.id ++
        "\nCarrier ID: " ++ toString (o.carrierId.getD 0) ++
        "\nEntry Date: " ++ o.entryD ++ "\n" ++
        "Order Lines:\n" ++
        String.join ((db.linesOf (t.wId, t.dId, o.id)).map (statusLine D))⟩

/-- `ExecuteOrderStatusTransaction` and `SQLITE3_ORDER_STATUS`. -/
def orderStatus (t : OrderStatusTransaction) : Script (Database R) String where
  body db :=
    if t.byName then
      let rows := db.named (cString t.cLast) t.wId t.dId
      if rows.length = 0 then
        some ⟨db, .leave, "No customers found with the given last name."⟩
      else match rows[(rows.length - 1) / 2]? with
        | none => some ⟨db, .rollback, "Error: SQL Error: Unable to fetch midpoint customer."⟩
        | some c => some (orderStatusOf D t c db)
    else match db.customer.find (t.wId, t.dId, t.cId) with
      | none => some ⟨db, .rollback, "Error: SQL Error: Unable to fetch customer details."⟩
      | some c => some (orderStatusOf D t c db)
  refused := "Error: Failed to begin transaction: " ++ beginError
  heals := true

end OrderStatus

section Delivery
variable {R : Type} [Add R] (D : Doubles R)

/-- One turn of the loop over the districts. The error is a `return` out of it, with the database
as it is then. -/
def deliverDistrict (t : DeliveryTransaction) (db : Database R) (d : Int) :
    Except (Database R × String) (Database R) :=
  match (db.pending t.wId d).min? with
  | none => .ok db
  | some oId =>
    let db := db.deleteNewOrder t.wId d oId
    match db.orders.find (t.wId, d, oId) with
    | none => .error (db, "SQL Error: Unable to fetch customer ID.")
    | some order =>
      let db := (db.setCarrier t.wId d oId t.carrierId).setDelivery t.wId d oId
        (cString t.dateTime)
      .ok (db.addBalance t.wId d order.cId
        (D.sum ((db.linesOf (t.wId, d, oId)).map (fun l => l.amount))))

def deliveryDistricts : List Int := (List.range 10).map (fun d : ℕ => (d : Int) + 1)

/-- `ExecuteDeliveryTransaction` and `SQLITE3_DELIVERY`. -/
def delivery (t : DeliveryTransaction) : Script (Database R) String where
  body db :=
    match deliveryDistricts.foldlM (deliverDistrict D t) db with
    | .ok db' => some ⟨db', .commit,
        "DELIVERY by CARRIER " ++ toString t.carrierId ++ " is completed successfully."⟩
    | .error (db', msg) => some ⟨db', .leave, msg⟩
  refused := "Failed to begin transaction: " ++ beginError
  heals := false

end Delivery

/-- `ExecuteStockLevelTransaction` and `SQLITE3_STOCK_LEVEL`. -/
def stockLevel {R : Type} (t : StockLevelTransaction) : Script (Database R) String where
  body db :=
    match db.district.find (t.wId, t.dId) with
    | none => some ⟨db, .rollback, "Error: SQL Error: Unable to fetch next order ID."⟩
    | some d => some ⟨db, .commit,
        "Stock Level: " ++ toString (db.lowStock t.wId t.dId d.nextOId t.threshold)⟩
  refused := "Error: Failed to begin transaction: " ++ beginError
  heals := true

section Execute
variable {R : Type} [Zero R] [One R] [Add R] [Sub R] [Mul R] [IntCast R] (D : Doubles R)

/-- The script that `ExecuteTransaction` runs for a transaction. -/
def script : TpccTransaction R → Script (Database R) String
  | .newOrder t => newOrder D t
  | .payment t => payment D t
  | .orderStatus t => orderStatus D t
  | .delivery t => delivery D t
  | .stockLevel t => stockLevel t

def executeTransaction (s : Session (Database R)) (t : TpccTransaction R) :
    Option (Session (Database R) × String) :=
  (script D t).call s

/-- `ExecuteTPCCBatch`: a request without a TPC-C transaction is answered with an empty text. -/
def executeTPCCBatch : Session (Database R) → List (Option (TpccTransaction R)) →
    Option (Session (Database R) × List String)
  | s, [] => some (s, [])
  | s, none :: rest => (executeTPCCBatch s rest).map (fun later => (later.1, "" :: later.2))
  | s, some t :: rest => (executeTransaction D s t).bind (fun called =>
      (executeTPCCBatch called.1 rest).map (fun later => (later.1, called.2 :: later.2)))

end Execute
end ResDB.Tpcc
