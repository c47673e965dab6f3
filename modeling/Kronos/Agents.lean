import Kronos.RecordTable
import Kronos.Rfc3339

namespace Kronos.Agents
open ByteRange Rfc3339 RecordTable

inductive AgentStatus
  | healthy | degraded
  deriving DecidableEq

structure AgentHeartbeat where
  id : Bytes
  capacity : Int
  now : Time
  deriving DecidableEq

structure AgentSnapshot where
  id : Bytes
  capacity : Int
  lastHeartbeat : Time
  status : AgentStatus
  deriving DecidableEq

structure AgentRegistry where
  degradedAfter : Int
  agents : Table AgentSnapshot.id

-- Durations are nanoseconds in 64 bits; a difference beyond them is cut off.
def maxDuration : Int := 2 ^ 63 - 1

def since (now before : Time) : Int :=
  max (-maxDuration - 1) (min maxDuration (now.instant - before.instant))

def newAgentRegistry (degradedAfter : Int) : AgentRegistry :=
  ⟨if degradedAfter ≤ 0 then 30 * 1000000000 else degradedAfter,Table.empty⟩

def snapshotOf (h : AgentHeartbeat) (clock : Time) : AgentSnapshot :=
  ⟨h.id,h.capacity,(if h.now.isZero then clock else h.now).utc,.healthy⟩

def heartbeat (r : AgentRegistry) (h : AgentHeartbeat) (clock : Time) : AgentRegistry :=
  {r with agents := r.agents.put (snapshotOf h clock)}

def statusAt (r : AgentRegistry) (lastHeartbeat now : Time) : AgentStatus :=
  if r.degradedAfter < since now lastHeartbeat then .degraded else .healthy

def list (r : AgentRegistry) (now : Time) : List AgentSnapshot :=
  r.agents.rows.map (fun agent => {agent with status := statusAt r agent.lastHeartbeat now})

def lostAgents (agents : List AgentSnapshot) : List Bytes :=
  (agents.filter (fun agent => agent.status = .degraded)).map AgentSnapshot.id

def capacityOf (agent : AgentSnapshot) : Int := if agent.capacity ≤ 0 then 1 else agent.capacity

-- What the healthy agents can take together, when there is one.
def healthyAgentCapacity (agents : List AgentSnapshot) : Option Int :=
  let total := ((agents.filter (fun agent => agent.status = .healthy)).map capacityOf).sum
  if total ≤ 0 then none else some total

end Kronos.Agents
