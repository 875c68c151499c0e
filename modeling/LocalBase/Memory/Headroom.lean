import LocalBase.Memory.Preflight

/-!
# What placement is told there is room for

`Headroom` is the figure placement plans the host side against. It counts the
reservations in a loop of its own: a releasing runtime that is resident is
credited at its whole projection, whereas the preflight credits it at its
footprint if that is less. A demand in the difference is planned for and then
refused, and so is one past the capacity, when the credit lifts the figure above
what the host can ever give.
-/

namespace LocalBase.Memory

/-- What `Headroom` adds up. -/
structure HeadroomTotals where
  freed : Int := 0
  pending : Int := 0

def HeadroomTotals.count (releasing : List String) (l : HeadroomTotals) (id : String)
    (r : ReservationEntry) : HeadroomTotals :=
  if id ∈ releasing ∧ r.resident then { l with freed := l.freed + r.projected }
  else if id ∉ releasing ∧ ¬ r.resident then { l with pending := l.pending + r.projected }
  else l

namespace Controller

end Controller

/-! ## The two loops -/

section Totals

variable {c : Controller} {releasing : List String} {measured : String → Option Int}

variable (hc : c.Recorded)
include hc

theorem Controller.Recorded.inSample {id : String} {r : ReservationEntry}
    (hlook : c.reservations.lookup id = some r) : r.inSample c.sampleEpoch = r.resident := by
  have hpast : r.residentAt ≤ c.sampleEpoch := hc.past id r hlook
  simp [ReservationEntry.inSample, hpast]

end Totals

/-! ## The refusals for system memory -/

/-- The last test, past all the others: the demand and the reserve are more
than the reading and the credit leave. -/
structure Controller.Short (c : Controller) (d : Demand) (snap : Snapshot) (releasing : List String)
    (credit pending : Int) : Prop where
  set_ok : ¬ c.WorkingSetShort d releasing
  healthy : c.state = .healthy
  measured : 0 ≤ snap.available
  normal : snap.pressure = .normal
  above_warning : (c.reserveBytes : ℚ) * warningReserveMultiplier ≤ (snap.available + credit : Int)
  short : max 0 (snap.available + credit - pending) - c.projected d < c.reserveBytes

end LocalBase.Memory
