import AcCore.Gov.Engine.AuthDelta
import AcCore.Lib.Rounding

/-!
# The auth app

Who takes part: the nodes, and the candidates for them in the hall. A block
brings candidates into the hall and then moves some between hall and nodes, as
the growth policies say.
-/

namespace AcCore.Gov.Engine.Auth

open Lib

/-- `peer_t::stage_t`, as far as the app gives it. -/
inductive PeerStage where
  | sysop
  | node
  | hall
  | out
  deriving DecidableEq, Repr

/-- `db_t`. Both are hash tables. -/
structure Db where
  nodes : Table Ripemd160 Address
  hall : Table Ripemd160 Address

/-- `auth::app`. The public key of the node is given by its hash. -/
structure App where
  nodeKey : Ripemd160
  db : Db
  pool : LocalDelta
  policies : Policies 2
  policiesLocal : Policies 2

/-- `policies_t::temp_load`. -/
def tempLoad : Policies 2 := fun i => if i = 0 then 1 / 100 else 1

/-- `round`, which takes halves away from zero. -/
def round (q : ℚ) : ℤ := if 0 ≤ q then ⌊q + 1 / 2⌋ else ⌈q - 1 / 2⌉

namespace App

/-- The app as it is created. -/
def create (nodeKey : Ripemd160) : App :=
  ⟨nodeKey, ⟨∅, ∅⟩, ⟨fun _ => 0, []⟩, tempLoad, tempLoad⟩

/-- `db_t::get_stage`. -/
def getStage (a : App) (key : Ripemd160) : PeerStage :=
  if key ∈ a.db.nodes then .node else if key ∈ a.db.hall then .hall else .out

/-- `my_stage`. -/
def myStage (a : App) : PeerStage := a.getStage a.nodeKey

/-- `is_node`. -/
def isNode (a : App) : Bool := a.myStage = .node

/-- `basic_auth_completed`: the stage of the peer, who becomes a candidate when
he is not known yet. -/
def basicAuthCompleted (a : App) (key : Ripemd160) (address : Address) : App × PeerStage :=
  if key = a.nodeKey then (a, .sysop)
  else
    match a.getStage key with
    | .out => ({ a with pool := { a.pool with toHall := a.pool.toHall ++ [(key, address)] } }, .out)
    | stage => (a, stage)

/-- `create_local_delta`, with `add_policies`. -/
def createLocalDelta (a : App) : LocalDelta × App :=
  ({ a.pool with policies := a.policiesLocal }, { a with pool := ⟨fun _ => 0, []⟩ })

section

variable [Rounding]

/-- `1e-8`, below which there is no growth. -/
def leastGrowth : ℚ := Rounding.round (1 / 100000000)

/-- `floor((double)n*growth)`. -/
def floorGrowth (n : ℕ) (growth : ℚ) : ℤ := ⌊Rounding.round (Rounding.round n * growth)⌋

/-- The least growth is positive. -/
theorem leastGrowth_pos : 0 < leastGrowth := Rounding.round_pos (by norm_num)

/-- Nobody is asked of an empty table. -/
@[simp] theorem floorGrowth_zero (growth : ℚ) : floorGrowth 0 growth = 0 := by simp [floorGrowth]

/-- How many `add_growth_transactions` moves, and whether from the hall to the
nodes; `none` without growth. -/
def growth (a : App) : Option (Bool × ℕ) :=
  let growth := a.policies 0
  let minGrowth := round (a.policies 1)
  if |growth| < leastGrowth then none
  else if 0 ≤ growth then
    let nh := a.db.hall.keys.card
    let s := floorGrowth nh growth
    let s := if s < minGrowth then minGrowth else s
    let s := if s > nh then (nh : ℤ) else s
    some (true, s.toNat)
  else
    let s := -floorGrowth a.db.nodes.keys.card growth
    some (false, s.toNat)

/-- Moves the entry of a key; `none` when there is none. -/
def move (key : Ripemd160) (src dst : Table Ripemd160 Address) :
    Option (Table Ripemd160 Address × Table Ripemd160 Address) :=
  (src.lookup key).map fun address => (src.erase key, Table.emplace key address dst)

/-- `add_growth_transactions`. Which entries the random indices pick from the
hash table is the argument `picks`; `none` when they cannot pick these. -/
def addGrowthTransactions (a : App) (picks : List Ripemd160) : Option App :=
  match a.growth with
  | none => if picks = [] then some a else none
  | some (true, s) =>
    if picks.length = s then
      (picks.foldlM (fun t key => move key t.1 t.2) (a.db.hall, a.db.nodes)).map fun t =>
        { a with db := ⟨t.2, t.1⟩ }
    else none
  | some (false, s) =>
    if picks.length = s then
      (picks.foldlM (fun t key => move key t.1 t.2) (a.db.nodes, a.db.hall)).map fun t =>
        { a with db := ⟨t.1, t.2⟩ }
    else none

/-- `import`. -/
def importDelta (a : App) (d : Delta) (picks : List Ripemd160) : Option App :=
  let hall := Delta.emplaceAll a.db.hall (Table.toList d.toHall)
  addGrowthTransactions { a with db := ⟨a.db.nodes, hall⟩, policies := d.policies } picks

end

/-- `clear`. -/
def clear (a : App) : App := { a with policies := fun _ => 0, db := ⟨∅, ∅⟩ }

end App

end AcCore.Gov.Engine.Auth
