import Cppforge.Lib.Bits

namespace Cppforge.Gen

namespace SnowflakeOption

def machineIdBits : Int64 := 5
def datacenterIdBits : Int64 := 5
def workerBits : Int64 := machineIdBits + datacenterIdBits
def sequenceBits : Int64 := 12
def maxSequence : Int64 := ~~~(-1 <<< sequenceBits)
def maxMachineId : Int64 := ~~~(-1 <<< machineIdBits)
def maxDatacenterId : Int64 := ~~~(-1 <<< datacenterIdBits)
def TWEPOCH : Int64 := 1288855200000

end SnowflakeOption

structure SnowflakeGenerator where
  lastTimestamp : Int64
  sequence : Int64
  machineId : Int16
  datacenterId : Int16
deriving DecidableEq

namespace SnowflakeGenerator
open SnowflakeOption

/-- The constructor; `.error` is the exception. -/
def create (machineId datacenterId : Int16) : Except String SnowflakeGenerator :=
  if machineId < 0 ∨ machineId.toInt64 > maxMachineId then
    .error "cppforge::SnowflakeGenerator::SnowflakeGenerator: Machine ID out of range (0-31)"
  else if datacenterId < 0 ∨ datacenterId.toInt64 > maxDatacenterId then
    .error "cppforge::SnowflakeGenerator::SnowflakeGenerator: Datacenter ID out of range (0-31)"
  else .ok ⟨-1, 0, machineId, datacenterId⟩

/-- `now` is the system clock in milliseconds. -/
def getCurrentTimestamp (now : Int64) : Int64 := now - TWEPOCH

/-- The clock is read until a waiting loop ends; `none` while it still waits. -/
def readWhile (waits : Int64 → Bool) : List Int64 → Option (Int64 × List Int64)
  | [] => none
  | now :: clock =>
    if waits (getCurrentTimestamp now) then readWhile waits clock
    else some (getCurrentTimestamp now, clock)

def tilNextMillis (lastTimestamp : Int64) (clock : List Int64) : Option (Int64 × List Int64) :=
  readWhile (fun timestamp => timestamp ≤ lastTimestamp) clock

def generateUniqueId (timestamp : Int64) (datacenterId machineId : Int16) (sequence : Int64) :
    Int64 :=
  let nodeId := datacenterId.toInt64 <<< 5 ||| machineId.toInt64
  timestamp <<< (workerBits + sequenceBits) ||| nodeId <<< sequenceBits ||| sequence

/-- The end of a call. -/
def issue (g : SnowflakeGenerator) (timestamp sequence : Int64) (clock : List Int64) :
    Int64 × SnowflakeGenerator × List Int64 :=
  (generateUniqueId timestamp g.datacenterId g.machineId sequence,
    { g with lastTimestamp := timestamp, sequence := sequence }, clock)

/-- `clock` holds the readings to come. -/
def nextId (g : SnowflakeGenerator) (clock : List Int64) :
    Option (Int64 × SnowflakeGenerator × List Int64) := do
  let (timestamp, clock) ← readWhile (fun timestamp => timestamp < g.lastTimestamp) clock
  if timestamp = g.lastTimestamp then
    let sequence := (g.sequence + 1) &&& maxSequence
    if sequence = 0 then
      let (timestamp, clock) ← tilNextMillis g.lastTimestamp clock
      return issue g timestamp sequence clock
    else return issue g timestamp sequence clock
  else return issue g timestamp 0 clock

/-- The ids of calls one after the other. -/
def nextIds (g : SnowflakeGenerator) (clock : List Int64) :
    Nat → Option (List Int64 × SnowflakeGenerator × List Int64)
  | 0 => some ([], g, clock)
  | calls + 1 => do
    let (id, g, clock) ← nextId g clock
    let (ids, g, clock) ← nextIds g clock calls
    return (id :: ids, g, clock)

end SnowflakeGenerator

end Cppforge.Gen
