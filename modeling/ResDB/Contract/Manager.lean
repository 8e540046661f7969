import ResDB.Common.Crypto
import ResDB.Library.AssocMap

/-! The contract service: accounts, deployment and the table of the functions of a contract
(`ContractManager`, `AddressManager`, `ContractTransactionManager`). The virtual machine is a
library and stays a parameter; so do the hexadecimal texts of addresses and codes, which are
numbers and byte strings here. -/
namespace ResDB.Contracts

abbrev Address := ℕ

structure Account where
  balance : ℕ
  code : Bytes
  nonce : ℕ := 0
  storage : List (ℕ × ℕ) := []
  deriving DecidableEq

abbrev GlobalState := AssocMap Address Account

/-- `create` of the global state keeps an account that exists. -/
def create (gs : GlobalState) (address : Address) (balance : ℕ) (code : Bytes) : GlobalState :=
  match gs.find address with
  | some _ => gs
  | none => gs.set address { balance := balance, code := code }

def setCode (gs : GlobalState) (address : Address) (code : Bytes) : GlobalState :=
  match gs.find address with
  | some account => gs.set address { account with code := code }
  | none => gs

inductive ExitReason where
  | returned (output : Bytes)
  | halted
  | threw

/-- What the service uses of the virtual machine. A run may change any account. -/
structure Eevm where
  generateAddress : Address → ℕ → Address
  run : GlobalState → (caller contract : Address) → (input : Bytes) → ExitReason × GlobalState

structure FuncInfo where
  funcName : String
  hash : String

structure DeployInfo where
  contractBin : Bytes
  contractName : String
  initParam : List ℕ := []
  funcInfo : List FuncInfo := []

/-- A word of 32 bytes, the high one first, goes to the end of the code. -/
def appendArgToInput (code : Bytes) (arg : ℕ) : Bytes :=
  code ++ (List.range 32).map fun i => UInt8.ofNat (arg / 256 ^ (31 - i))

structure ContractManager where
  gs : GlobalState := ∅
  funcAddress : AssocMap Address (AssocMap String String) := ∅

namespace ContractManager
variable (evm : Eevm) (m : ContractManager)

/-- The tables are made when they are first used, as by the index operator of a map. -/
def setFuncAddress (address : Address) (func : FuncInfo) : ContractManager :=
  { m with
    funcAddress := m.funcAddress.set address
      (((m.funcAddress.find address).getD ∅).set func.funcName func.hash) }

/-- Only a run that returns has a result. -/
def execute (gs : GlobalState) (caller contract : Address) (input : Bytes) :
    Option Bytes × GlobalState :=
  match evm.run gs caller contract input with
  | (.returned output, after) => (some output, after)
  | (.halted, after) => (none, after)
  | (.threw, after) => (none, after)

/-- `CreateContractAddress`: the nonce is always 0. -/
def createContractAddress (owner : Address) : Address := evm.generateAddress owner 0

def construct (owner : Address) (info : DeployInfo) : Option Bytes × GlobalState :=
  let address := createContractAddress evm owner
  execute evm (create m.gs address 0 (info.initParam.foldl appendArgToInput info.contractBin))
    owner address []

def deployContract (owner : Address) (info : DeployInfo) : Address × ContractManager :=
  let address := createContractAddress evm owner
  match m.construct evm owner info with
  | (some code, after) =>
      (address, info.funcInfo.foldl (fun m func => m.setFuncAddress address func)
        { m with gs := setCode after address code })
  | (none, after) => (0, { m with gs := after.erase address })

def contractAt (address : Address) : Option Bytes × Option (AssocMap String String) :=
  ((m.gs.find address).map (fun account => account.code), m.funcAddress.find address)

end ContractManager

structure DeployRequest where
  callerAddress : Address
  deployInfo : DeployInfo

structure Contract where
  ownerAddress : Address
  contractAddress : Address
  contractName : String
  deriving DecidableEq

structure ContractTransactionManager where
  users : List Address
  contractManager : ContractManager := {}

namespace ContractTransactionManager

def deploy (evm : Eevm) (t : ContractTransactionManager) (request : DeployRequest) :
    Except String Contract × ContractTransactionManager :=
  if request.callerAddress ∈ t.users then
    let deployed := t.contractManager.deployContract evm request.callerAddress request.deployInfo
    if 0 < deployed.1 then
      (.ok
        { ownerAddress := request.callerAddress
          contractAddress := deployed.1
          contractName := request.deployInfo.contractName },
        { t with contractManager := deployed.2 })
    else (.error "Deploy Contract fail.", { t with contractManager := deployed.2 })
  else (.error "Account not exist.", t)

end ContractTransactionManager
end ResDB.Contracts
