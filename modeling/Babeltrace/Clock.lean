import Mathlib

/-!
# Clock classes

Conversions between clock values and nanoseconds from the origin (`common.h` and `utils.h`). The way
to nanoseconds computes with `double` values.
-/
namespace Babeltrace.TraceIr

/-- `bt_clock_class`: what the conversions read -/
structure ClockClass where
  frequency : UInt64
  offsetSeconds : Int64
  offsetCycles : UInt64
  offsetCycles_lt : offsetCycles < frequency
  deriving DecidableEq, Repr

def safeToMulInt64 (a b : Int64) : Bool :=
  if a = 0 ∨ b = 0 then true else a < Int64.maxValue / b

def safeToMulUInt64 (a b : UInt64) : Bool :=
  if a = 0 ∨ b = 0 then true else a < 0xffffffffffffffff / b

def safeToAddInt64 (a b : Int64) : Bool := a ≤ Int64.maxValue - b

def safeToAddUInt64 (a b : UInt64) : Bool := a ≤ 0xffffffffffffffff - b

/-- As `bt_common_clock_value_from_ns_from_origin()` computes it: signed overflows wrap around. -/
def ClockClass.offsetInNs (cc : ClockClass) : Option Int64 := do
  guard (safeToMulInt64 cc.offsetSeconds 1000000000)
  let offsetInNs := cc.offsetSeconds * 1000000000
  let nsToAdd ←
    if cc.frequency = 1000000000 then some cc.offsetCycles.toInt64
    else if safeToMulInt64 cc.offsetCycles.toInt64 1000000000 then
      some (cc.offsetCycles.toInt64 * 1000000000 / cc.frequency.toInt64)
    else none
  guard (safeToAddInt64 offsetInNs nsToAdd)
  return offsetInNs + nsToAdd

/-- `bt_common_clock_value_from_ns_from_origin()` -/
def ClockClass.valueFromNsFromOrigin (cc : ClockClass) (nsFromOrigin : Int64) : Option UInt64 := do
  let offsetInNs ← cc.offsetInNs
  guard (offsetInNs ≤ nsFromOrigin)
  let valueInNs := (nsFromOrigin - offsetInNs).toUInt64
  let valuePeriods := valueInNs / 1000000000
  let remValueInNs := valueInNs - valuePeriods * 1000000000
  guard (valuePeriods ≤ 0xffffffffffffffff / cc.frequency)
  guard (safeToMulUInt64 valuePeriods cc.frequency)
  let valuePeriodCycles := valuePeriods * cc.frequency
  guard (safeToMulUInt64 cc.frequency remValueInNs)
  guard (safeToAddUInt64 (cc.frequency * remValueInNs / 1000000000) valuePeriodCycles)
  return cc.frequency * remValueInNs / 1000000000 + valuePeriodCycles

/-- `bt_util_ns_from_value()` -/
def nsFromValue (frequency valueCycles : UInt64) : UInt64 :=
  if frequency = 1000000000 then valueCycles
  else
    let dblres := Float.Model.ofScientific 1 9 * Float.Model.ofUInt64 valueCycles /
      Float.Model.ofUInt64 frequency
    if Float.Model.ofUInt64 0xffffffffffffffff ≤ dblres then 0xffffffffffffffff
    else dblres.toUInt64

/-- `bt_util_get_base_offset_ns()` -/
def ClockClass.baseOffsetNs (cc : ClockClass) : Option Int64 :=
  if cc.offsetSeconds ≤ Int64.minValue / 1000000000 - 1 ∨
      Int64.maxValue / 1000000000 - 1 ≤ cc.offsetSeconds then none
  else
    some (cc.offsetSeconds * 1000000000 + (nsFromValue cc.frequency cc.offsetCycles).toInt64)

/-- `bt_util_ns_from_origin_clock_class()` -/
def ClockClass.nsFromOrigin (cc : ClockClass) (value : UInt64) : Option Int64 := do
  let base ← cc.baseOffsetNs
  let valueNs := nsFromValue cc.frequency value
  guard (valueNs < Int64.maxValue.toUInt64)
  if 0 < base then guard (valueNs.toInt64 ≤ Int64.maxValue - base)
  return base + valueNs.toInt64

/-- The time of a clock snapshot, in nanoseconds from origin, when it doesn't overflow -/
def ClockClass.time (cc : ClockClass) (value : UInt64) : Option ℤ :=
  (cc.nsFromOrigin value).map Int64.toInt

def nsClockClass : ClockClass := ⟨1000000000, 0, 0, by decide⟩

end Babeltrace.TraceIr
