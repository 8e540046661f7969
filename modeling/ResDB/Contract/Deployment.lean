import Mathlib.Tactic
import ResDB.Contract.Manager
import ResDB.Library.Run

/-! Whether deployments interfere. The address of a contract is made from its owner alone, so
an owner has one address; a deployment that fails removes the account at it. -/
namespace ResDB.Contracts

/-- The service and the answers of the deployments that succeeded. -/
structure Deployments where
  service : ContractTransactionManager
  contracts : List Contract := []

namespace Deployments
variable (evm : Eevm)

def step (s : Deployments) (request : DeployRequest) : Deployments :=
  match s.service.deploy evm request with
  | (.ok contract, after) => ⟨after, s.contracts ++ [contract]⟩
  | (.error _, after) => ⟨after, s.contracts⟩

def replay (users : List Address) (requests : List DeployRequest) : Deployments :=
  requests.foldl (step evm) { service := { users := users } }

def Unchanged (s s' : Deployments) : Prop :=
  ∀ c ∈ s.contracts, s'.service.contractManager.contractAt c.contractAddress =
    s.service.contractManager.contractAt c.contractAddress

/-- No two deployments of the list have the same address, and those that fail leave the
contracts deployed before as they were. -/
def NoInterference (users : List Address) (requests : List DeployRequest) : Prop :=
  ((replay evm users requests).contracts.map (fun c => c.contractAddress)).Nodup ∧
    ∀ earlier request, earlier ++ [request] <+: requests →
      ∀ message, ((replay evm users earlier).service.deploy evm request).1 = .error message →
        Unchanged (replay evm users earlier) (replay evm users (earlier ++ [request]))

/-- The constructor returns, and the address is not the one that stands for a failure. -/
abbrev Succeeds (s : Deployments) (request : DeployRequest) : Prop :=
  (s.service.contractManager.construct evm request.callerAddress request.deployInfo).1.isSome ∧
    0 < ContractManager.createContractAddress evm request.callerAddress

/-- A caller whose constructor returns has no contract yet. One whose constructor fails has no
account at its address, and the run does not change the code of another contract. -/
def Separate (s : Deployments) (request : DeployRequest) : Prop :=
  request.callerAddress ∈ s.service.users →
    let address := ContractManager.createContractAddress evm request.callerAddress
    let gs := s.service.contractManager.gs
    let ran := s.service.contractManager.construct evm request.callerAddress request.deployInfo
    if Succeeds evm s request then ∀ c ∈ s.contracts, c.ownerAddress ≠ request.callerAddress
    else ∀ c ∈ s.contracts,
      if c.ownerAddress = request.callerAddress then gs.find address = none
      else (ran.2.find c.contractAddress).map (fun account => account.code) =
        (gs.find c.contractAddress).map (fun account => account.code)

instance decidableSeparate (s : Deployments) (request : DeployRequest) :
    Decidable (Separate evm s request) :=
  inferInstanceAs (Decidable (_ → ite _ (∀ _ ∈ _, _) (∀ _ ∈ _, ite _ _ _)))

end Deployments

/-! ### One deployment -/

section Deploying
variable (evm : Eevm)

namespace ContractManager
variable {m : ContractManager}

theorem gs_foldl_setFuncAddress (address : Address) (funcs : List FuncInfo) (m : ContractManager) :
    (funcs.foldl (fun m func => m.setFuncAddress address func) m).gs = m.gs := by
  induction funcs generalizing m with
  | nil => rfl
  | cons func rest ih => rw [List.foldl_cons, ih, setFuncAddress]

theorem find_foldl_setFuncAddress {address other : Address} (apart : other ≠ address)
    (funcs : List FuncInfo) (m : ContractManager) :
    (funcs.foldl (fun m func => m.setFuncAddress address func) m).funcAddress.find other =
      m.funcAddress.find other := by
  induction funcs generalizing m with
  | nil => rfl
  | cons func rest ih => rw [List.foldl_cons, ih, setFuncAddress, AssocMap.find_set, if_neg apart]

theorem find_setCode_ne {address other : Address} (apart : other ≠ address) (gs : GlobalState)
    (code : Bytes) : (setCode gs address code).find other = gs.find other := by
  unfold setCode
  cases gs.find address with
  | none => rfl
  | some account => rw [AssocMap.find_set, if_neg apart]

theorem deployContract_of_some {owner : Address} {info : DeployInfo} {code : Bytes}
    (ran : (m.construct evm owner info).1 = some code) :
    m.deployContract evm owner info =
      (createContractAddress evm owner,
        info.funcInfo.foldl (fun m func => m.setFuncAddress (createContractAddress evm owner) func)
          { m with
            gs :=
              setCode (m.construct evm owner info).2 (createContractAddress evm owner) code }) := by
  unfold deployContract
  cases outcome : m.construct evm owner info with
  | mk result after =>
      rw [outcome] at ran
      cases ran
      rfl

theorem deployContract_of_none {owner : Address} {info : DeployInfo}
    (ran : (m.construct evm owner info).1 = none) :
    m.deployContract evm owner info =
      (0, { m with
        gs := (m.construct evm owner info).2.erase (createContractAddress evm owner) }) := by
  unfold deployContract
  cases outcome : m.construct evm owner info with
  | mk result after =>
      rw [outcome] at ran
      cases ran
      rfl

theorem deployContract_pos_iff {owner : Address} {info : DeployInfo} :
    0 < (m.deployContract evm owner info).1 ↔
      (m.construct evm owner info).1.isSome ∧ 0 < createContractAddress evm owner := by
  cases ran : (m.construct evm owner info).1 with
  | none => simp [deployContract_of_none evm ran]
  | some code => simp [deployContract_of_some evm ran]

theorem contractAt_failed_iff {owner : Address} {info : DeployInfo}
    (failed : ¬ ((m.construct evm owner info).1.isSome ∧ 0 < createContractAddress evm owner))
    {other : Address} (positive : 0 < other) :
    (m.deployContract evm owner info).2.contractAt other = m.contractAt other ↔
      if other = createContractAddress evm owner then
        m.gs.find (createContractAddress evm owner) = none
      else ((m.construct evm owner info).2.find other).map (fun account => account.code) =
        (m.gs.find other).map (fun account => account.code) := by
  cases ran : (m.construct evm owner info).1 with
  | none =>
      rw [deployContract_of_none evm ran, contractAt, contractAt, AssocMap.find_erase,
        Prod.mk.injEq]
      split_ifs with same
      · rw [same]
        simp [eq_comm]
      · simp
  | some code =>
      have zero : createContractAddress evm owner = 0 := by
        by_contra nonzero
        exact failed ⟨by rw [ran]; rfl, Nat.pos_of_ne_zero nonzero⟩
      have apart : other ≠ createContractAddress evm owner := zero ▸ positive.ne'
      rw [deployContract_of_some evm ran, contractAt, contractAt, gs_foldl_setFuncAddress,
        find_foldl_setFuncAddress apart, find_setCode_ne apart, if_neg apart, Prod.mk.injEq]
      simp

end ContractManager
end Deploying

/-! ### Whole histories -/

namespace Deployments
variable (evm : Eevm) {s : Deployments} {request : DeployRequest}

def Harmless (s : Deployments) (request : DeployRequest) : Prop :=
  match (s.service.deploy evm request).1 with
  | .ok contract => contract.contractAddress ∉ s.contracts.map (fun c => c.contractAddress)
  | .error _ => Unchanged s (s.step evm request)

def Addressed (s : Deployments) : Prop :=
  ∀ c ∈ s.contracts, c.contractAddress = ContractManager.createContractAddress evm c.ownerAddress ∧
    0 < c.contractAddress

theorem replay_concat (users : List Address) (requests : List DeployRequest) :
    replay evm users (requests ++ [request]) = (replay evm users requests).step evm request := by
  rw [replay, List.foldl_concat]
  rfl

section Answers
variable (known : request.callerAddress ∈ s.service.users)
include known

theorem deploy_of_success (success : Succeeds evm s request) :
    (s.service.deploy evm request).1 = .ok
      { ownerAddress := request.callerAddress
        contractAddress := ContractManager.createContractAddress evm request.callerAddress
        contractName := request.deployInfo.contractName } := by
  have positive := (ContractManager.deployContract_pos_iff evm).mpr success
  obtain ⟨code, ran⟩ := Option.isSome_iff_exists.mp success.1
  unfold ContractTransactionManager.deploy
  rw [if_pos known, if_pos positive, ContractManager.deployContract_of_some evm ran]

theorem deploy_of_failure (failure : ¬ Succeeds evm s request) :
    s.service.deploy evm request = (.error "Deploy Contract fail.",
      { s.service with contractManager := (s.service.contractManager.deployContract evm
          request.callerAddress request.deployInfo).2 }) := by
  have zero := fun positive => failure ((ContractManager.deployContract_pos_iff evm).mp positive)
  unfold ContractTransactionManager.deploy
  rw [if_pos known, if_neg zero]

end Answers

theorem deploy_of_unknown (unknown : request.callerAddress ∉ s.service.users) :
    s.service.deploy evm request = (.error "Account not exist.", s.service) := by
  unfold ContractTransactionManager.deploy
  rw [if_neg unknown]

theorem contracts_step_of_ok {contract : Contract}
    (answer : (s.service.deploy evm request).1 = .ok contract) :
    (s.step evm request).contracts = s.contracts ++ [contract] := by
  unfold Deployments.step
  cases outcome : s.service.deploy evm request with
  | mk result after =>
      rw [outcome] at answer
      cases answer
      rfl

theorem contracts_step_of_error {message : String}
    (answer : (s.service.deploy evm request).1 = .error message) :
    (s.step evm request).contracts = s.contracts := by
  unfold Deployments.step
  cases outcome : s.service.deploy evm request with
  | mk result after =>
      rw [outcome] at answer
      cases answer
      rfl

theorem Addressed.step {evm : Eevm} (addressed : Addressed evm s) (request : DeployRequest) :
    Addressed evm (s.step evm request) := by
  by_cases known : request.callerAddress ∈ s.service.users
  · by_cases success : Succeeds evm s request
    · rw [Addressed, contracts_step_of_ok evm (deploy_of_success evm known success)]
      intro c inside
      rcases List.mem_append.mp inside with before | new
      · exact addressed c before
      · rw [List.mem_singleton.mp new]
        exact ⟨rfl, success.2⟩
    · rw [Addressed, Deployments.step, deploy_of_failure evm known success]
      exact addressed
  · rw [Addressed, Deployments.step, deploy_of_unknown evm known]
    exact addressed

theorem addressed_replay (users : List Address) (requests : List DeployRequest) :
    Addressed evm (replay evm users requests) := by
  induction requests using List.reverseRecOn with
  | nil => exact fun c inside => absurd inside List.not_mem_nil
  | append_singleton requests request ih =>
      rw [replay_concat]
      exact ih.step request

theorem Addressed.address_eq_iff {evm : Eevm} (addressed : Addressed evm s)
    (injective : ∀ owner owner' nonce nonce',
      evm.generateAddress owner nonce = evm.generateAddress owner' nonce' →
        owner = owner' ∧ nonce = nonce')
    {c : Contract} (inside : c ∈ s.contracts) (caller : Address) :
    c.contractAddress = ContractManager.createContractAddress evm caller ↔
      c.ownerAddress = caller := by
  rw [(addressed c inside).1]
  constructor
  · exact fun same => (injective _ _ _ _ same).1
  · intro same
    rw [same]

theorem Addressed.harmless_iff {evm : Eevm} (addressed : Addressed evm s)
    (injective : ∀ owner owner' nonce nonce',
      evm.generateAddress owner nonce = evm.generateAddress owner' nonce' →
        owner = owner' ∧ nonce = nonce') (request : DeployRequest) :
    Harmless evm s request ↔ Separate evm s request := by
  have address := fun c (inside : c ∈ s.contracts) =>
    addressed.address_eq_iff injective inside request.callerAddress
  by_cases known : request.callerAddress ∈ s.service.users
  · by_cases success : Succeeds evm s request
    · simp only [Harmless, deploy_of_success evm known success, Separate, known, if_pos success,
        forall_const, List.mem_map, not_exists, not_and]
      exact forall₂_congr (fun c inside => not_congr (address c inside))
    · have failed := deploy_of_failure evm known success
      simp only [Harmless, failed, Separate, known, if_neg success, forall_const, Unchanged,
        Deployments.step]
      refine forall₂_congr (fun c inside => ?_)
      rw [ContractManager.contractAt_failed_iff evm success (addressed c inside).2]
      simp only [address c inside]
  · simp only [Harmless, deploy_of_unknown evm known, Separate, known, Unchanged,
      Deployments.step]
    simp

theorem noInterference_concat (users : List Address) (requests : List DeployRequest)
    (request : DeployRequest) :
    NoInterference evm users (requests ++ [request]) ↔
      NoInterference evm users requests ∧ Harmless evm (replay evm users requests) request := by
  rw [NoInterference, NoInterference, Run.forall_steps_concat, replay_concat, Harmless]
  cases answer : ((replay evm users requests).service.deploy evm request).1 with
  | ok contract =>
      rw [contracts_step_of_ok evm answer, List.map_append, List.map_singleton,
        List.nodup_append_comm, List.singleton_append, List.nodup_cons]
      simp only [reduceCtorEq, false_implies, implies_true, and_true]
      tauto
  | error message =>
      rw [contracts_step_of_error evm answer]
      simp only [Except.error.injEq, forall_eq', and_assoc]

/-- Deployments do not interfere exactly if each of them is by a caller who has no contract yet
or, where its constructor fails, finds no account at its address and spares the others. -/
theorem no_interference_iff_separate (users : List Address) (requests : List DeployRequest)
    (injective : ∀ owner owner' nonce nonce',
      evm.generateAddress owner nonce = evm.generateAddress owner' nonce' →
        owner = owner' ∧ nonce = nonce') :
    NoInterference evm users requests ↔ ∀ earlier request, earlier ++ [request] <+: requests →
      Separate evm (replay evm users earlier) request := by
  induction requests using List.reverseRecOn with
  | nil =>
      refine ⟨fun _ earlier request inside => ?_, fun _ => ⟨List.nodup_nil, ?_⟩⟩
      · simp at inside
      · intro earlier request inside
        simp at inside
  | append_singleton requests request ih =>
      rw [noInterference_concat, Run.forall_steps_concat, ih,
        (addressed_replay evm users requests).harmless_iff injective]

end Deployments

/-! ### A small machine -/

/-- A constructor that starts with `0xf3` returns the rest of its code; other code throws. -/
def sampleEevm : Eevm where
  generateAddress owner nonce := Nat.pair owner nonce + 1
  run gs _ contract _ :=
    match (gs.find contract).map (fun account => account.code) with
    | some (op :: rest) => if op = 0xf3 then (.returned rest, gs) else (.threw, gs)
    | _ => (.threw, gs)

theorem sampleEevm_injective (owner owner' nonce nonce' : ℕ)
    (same : sampleEevm.generateAddress owner nonce = sampleEevm.generateAddress owner' nonce') :
    owner = owner' ∧ nonce = nonce' :=
  Nat.pair_eq_pair.mp (Nat.succ.inj same)

def sampleDeployment (owner : Address) : DeployRequest where
  callerAddress := owner
  deployInfo :=
    { contractBin := [0xf3, 1, 2]
      contractName := "Token"
      funcInfo := [{ funcName := "transfer(address,uint256)", hash := "a9059cbb" }] }

namespace Deployments

/-- Two owners, one contract each. -/
theorem two_owners_separate :
    NoInterference sampleEevm [7, 8] [sampleDeployment 7, sampleDeployment 8] ∧
      ((replay sampleEevm [7, 8] [sampleDeployment 7, sampleDeployment 8]).contracts.map
        (fun c => c.ownerAddress)) = [7, 8] := by
  refine ⟨(no_interference_iff_separate sampleEevm _ _ sampleEevm_injective).mpr ?_, by decide⟩
  rw [Run.forall_prefix_iff]
  decide

/-- An owner who deploys again runs the code of the first contract; it throws, and the first
contract is removed. -/
theorem second_deployment_removes_first :
    ¬ NoInterference sampleEevm [7] [sampleDeployment 7, sampleDeployment 7] := by
  intro none'
  have unchanged := none'.2 [sampleDeployment 7] (sampleDeployment 7) List.prefix_rfl
    "Deploy Contract fail." rfl
  have same := congrArg Prod.fst (unchanged ⟨7, Nat.pair 7 0 + 1, "Token"⟩ (by decide))
  exact absurd same (by decide)

end Deployments
end ResDB.Contracts
