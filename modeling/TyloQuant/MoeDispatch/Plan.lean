import Mathlib.Data.List.Basic
import Mathlib.Data.List.DropRight
import Mathlib.Data.List.Nodup

/-!
# Dispatch of routed experts

The ids that a router picked are sorted into one group for each expert, in the order in which the
experts appear first.  Groups of resident experts stay on the GPU; of the others, the last ones
that may be transferred are, as many as the quota allows.  `planMoeDispatch` builds a new plan,
`planMoeDispatchReuse` works in the plan and the workspace of an earlier call.
-/

namespace TyloQuant.MoeDispatch

inductive MoeDispatchKind where
  | cpu
  | gpuResident
  | gpuTransfer
  | inactive
deriving DecidableEq, Repr

structure MoeDispatchGroup where
  expert : Int := -1
  kind : MoeDispatchKind := .cpu
  positions : List Nat := []
deriving DecidableEq, Repr

structure MoeDispatchPlan where
  groups : List MoeDispatchGroup := []
  kinds : List MoeDispatchKind := []
deriving DecidableEq, Repr

structure MoeDispatchWorkspace where
  groupFor : List Nat := []
deriving DecidableEq, Repr

inductive DispatchError where
  | invalidArgument (message : String)
  | outOfRange (message : String)
deriving DecidableEq, Repr

/-- An id that stands for no expert. -/
def padded (allowPadding : Bool) (id : Int) : Bool := id = -1 && allowPadding

/-- The checks before anything is planned. -/
def checkRoute (ids : List Int) (experts : Int) (allowPadding : Bool) : Except DispatchError Unit :=
  if experts < 1 then .error (.invalidArgument "expert count must be positive")
  else if ids.any fun id => (id < 0 || experts ≤ id) && !(allowPadding && id = -1) then
    .error (.outOfRange "MoE expert ID is out of range")
  else .ok ()

/-! ### Placement -/

def MoeDispatchGroup.push (group : MoeDispatchGroup) (position : Nat) : MoeDispatchGroup :=
  { group with positions := group.positions ++ [position] }

def MoeDispatchGroup.place (resident : Int → Bool) (group : MoeDispatchGroup) : MoeDispatchGroup :=
  if resident group.expert then { group with kind := .gpuResident } else group

/-- The groups from the last to the first: the first ones that may be transferred are. -/
def assignFromBack (transferEligible : Int → Bool) :
    Nat → List MoeDispatchGroup → List MoeDispatchGroup
  | _, [] => []
  | 0, groups => groups
  | quota + 1, group :: rest =>
    if group.kind ≠ .cpu || !transferEligible group.expert then
      group :: assignFromBack transferEligible (quota + 1) rest
    else { group with kind := .gpuTransfer } :: assignFromBack transferEligible quota rest

def markGroup (kinds : List MoeDispatchKind) (group : MoeDispatchGroup) : List MoeDispatchKind :=
  group.positions.foldl (fun kinds position => kinds.set position group.kind) kinds

/-- `assign_moe_transfer_quota`. -/
def assignMoeTransferQuota (plan : MoeDispatchPlan) (quota : Nat) (transferEligible : Int → Bool) :
    MoeDispatchPlan :=
  let groups := (assignFromBack transferEligible quota plan.groups.reverse).reverse
  { groups, kinds := groups.foldl markGroup plan.kinds }

/-! ### A new plan -/

structure Placing where
  groups : List MoeDispatchGroup
  groupFor : List Nat

/-- One id of the loop.  An expert without a group has `size`, the number of ids, for its index. -/
def Placing.place (size : Nat) (allowPadding : Bool) (s : Placing) (routed : Int × Nat) : Placing :=
  let (id, position) := routed
  if padded allowPadding id then s
  else
    let s : Placing :=
      if s.groupFor.getD id.toNat 0 = size then
        { groups := s.groups ++ [{ expert := id, kind := .cpu, positions := [] }]
          groupFor := s.groupFor.set id.toNat s.groups.length }
      else s
    { s with groups := s.groups.modify (s.groupFor.getD id.toNat 0) (·.push position) }

def planMoeDispatch (ids : List Int) (experts : Int) (transferQuota : Nat)
    (resident transferEligible : Int → Bool) (allowPadding : Bool) :
    Except DispatchError MoeDispatchPlan := do
  checkRoute ids experts allowPadding
  let placed := ids.zipIdx.foldl (Placing.place ids.length allowPadding)
    { groups := [], groupFor := List.replicate experts.toNat ids.length }
  pure (assignMoeTransferQuota
    { groups := placed.groups.map (·.place resident)
      kinds := List.replicate ids.length .inactive } transferQuota transferEligible)

/-! ### A plan that is used again -/

/-- The groups of the earlier plan, of which the first `count` are this call's. -/
structure Reusing extends Placing where
  count : Nat

def Reusing.place (size : Nat) (allowPadding : Bool) (s : Reusing) (routed : Int × Nat) : Reusing :=
  let (id, position) := routed
  if padded allowPadding id then s
  else
    let s : Reusing :=
      if s.groupFor.getD id.toNat 0 = size then
        let groups := if s.count = s.groups.length then s.groups ++ [{}] else s.groups
        { groups := groups.modify s.count fun group =>
            { group with expert := id, kind := .cpu, positions := [] }
          groupFor := s.groupFor.set id.toNat s.count
          count := s.count + 1 }
      else s
    { s with groups := s.groups.modify (s.groupFor.getD id.toNat 0) (·.push position) }

/-- `std::vector::resize` of the groups. -/
def resize (groups : List MoeDispatchGroup) (count : Nat) : List MoeDispatchGroup :=
  groups.take count ++ List.replicate (count - groups.length) ({} : MoeDispatchGroup)

/-- `plan_moe_dispatch_reuse`: what it returns or throws, and the plan and the workspace that it
    leaves. -/
def planMoeDispatchReuse (plan : MoeDispatchPlan) (workspace : MoeDispatchWorkspace)
    (ids : List Int) (experts : Int) (transferQuota : Nat) (resident transferEligible : Int → Bool)
    (allowPadding : Bool) : Except DispatchError Unit × MoeDispatchPlan × MoeDispatchWorkspace :=
  match checkRoute ids experts allowPadding with
  | .error e => (.error e, plan, workspace)
  | .ok () =>
    let placed := ids.zipIdx.foldl (Reusing.place ids.length allowPadding)
      { groups := plan.groups
        groupFor := List.replicate experts.toNat ids.length
        count := 0 }
    (.ok (), assignMoeTransferQuota
      { groups := (resize placed.groups placed.count).map (·.place resident)
        kinds := List.replicate ids.length .inactive } transferQuota transferEligible,
      { groupFor := placed.groupFor })

/-! ### What a plan is to be -/

/-- The experts of some ids, in the order in which they appear first. -/
def seen (allowPadding : Bool) (ids : List Int) : List Int :=
  ids.foldl (fun experts id =>
    if padded allowPadding id || id ∈ experts then experts else experts ++ [id]) []

/-- The places of an expert among the ids, in order. -/
def positionsOf (ids : List Int) (expert : Int) : List Nat :=
  (List.range ids.length).filter fun position => ids[position]? = some expert

/-- A cold group that may be transferred. -/
def coldEligible (resident transferEligible : Int → Bool) (group : MoeDispatchGroup) : Bool :=
  !resident group.expert && transferEligible group.expert

/-- The groups partition the routed positions, and the last cold ones that may be transferred
    are. -/
structure Dispatched (ids : List Int) (experts : Int) (quota : Nat)
    (resident transferEligible : Int → Bool) (allowPadding : Bool) (plan : MoeDispatchPlan) :
    Prop where
  nodup : (plan.groups.map (·.expert)).Nodup
  known : ∀ group ∈ plan.groups, 0 ≤ group.expert ∧ group.expert < experts
  order : plan.groups.map (·.expert) = seen allowPadding ids
  positions : ∀ group ∈ plan.groups, group.positions = positionsOf ids group.expert
  routed : ∀ id ∈ ids, padded allowPadding id = false → ∃ group ∈ plan.groups, group.expert = id
  warm : ∀ group ∈ plan.groups, group.kind = .gpuResident ↔ resident group.expert = true
  active : ∀ group ∈ plan.groups, group.kind ≠ .inactive
  transferred : plan.groups.filter (·.kind = .gpuTransfer)
    = (plan.groups.filter (coldEligible resident transferEligible)).rtake quota
  transferredCount : (plan.groups.filter (·.kind = .gpuTransfer)).length
    = min quota (plan.groups.filter (coldEligible resident transferEligible)).length
  kinds : plan.kinds.length = ids.length
  kind : ∀ group ∈ plan.groups, ∀ position ∈ group.positions,
    plan.kinds[position]? = some group.kind
  padding : ∀ position : Nat, ids[position]? = some (-1) → allowPadding = true →
    plan.kinds[position]? = some .inactive

end TyloQuant.MoeDispatch
