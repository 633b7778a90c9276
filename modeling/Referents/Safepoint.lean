import Referents.Collector

/-!
# Safepoint requests

A collector that wants to pause raises a request.  Work in the background
polls it: an urgent request stops it at once, any other at the next list.
-/

namespace Referents

/-- The raised requests. -/
structure Safepoint where
  /-- Stop at the next list. -/
  atList : Bool := false
  /-- Stop before the next reference. -/
  urgent : Bool := false
  /-- How many requests were ever raised. -/
  requests : Nat := 0
deriving DecidableEq

namespace Safepoint

/-- Raises a request; an urgent one stops at once. -/
def request (s : Safepoint) (urgent : Bool) : Safepoint where
  atList := true
  urgent := s.urgent || urgent
  requests := wrapCount (s.requests + 1)

/-- Drops every request. -/
def release (s : Safepoint) : Safepoint := { s with atList := false, urgent := false }

/-- Whether a request is raised. -/
def isRequested (s : Safepoint) : Bool := s.atList || s.urgent

/-- Work stops while a request is raised. -/
def check : YieldCheck Safepoint where
  atList s := (s.isRequested, s)
  atReference s := (s.urgent, s)

end Safepoint

/-- A request that is raised while work goes on: before the poll that makes
`remaining` zero is answered. -/
structure TimedRequest where
  safepoint : Safepoint
  remaining : Nat
  urgent : Bool
deriving DecidableEq

namespace TimedRequest

/-- Counts a poll, and raises the request when it is due. -/
def poll (r : TimedRequest) : TimedRequest :=
  { r with
    safepoint := if r.remaining = 1 then r.safepoint.request r.urgent else r.safepoint
    remaining := r.remaining - 1 }

/-- Work stops while a request is raised; polls before references are counted. -/
def check : YieldCheck TimedRequest where
  atList r := (r.safepoint.isRequested, r)
  atReference r := (r.poll.safepoint.urgent, r.poll)

end TimedRequest

/-- How many polls are still answered with a no; without a number all of them are. -/
structure Patience where
  atList : Option Nat := none
  atReference : Option Nat := none
deriving DecidableEq

namespace Patience

/-- Whether patience has run out, and what is left of it. -/
def spend : Option Nat → Bool × Option Nat
  | none => (false, none)
  | some 0 => (true, some 0)
  | some (n + 1) => (false, some n)

/-- Work stops when patience has run out. -/
def check : YieldCheck Patience where
  atList p := let (out, left) := spend p.atList; (out, { p with atList := left })
  atReference p := let (out, left) := spend p.atReference; (out, { p with atReference := left })

end Patience

end Referents
