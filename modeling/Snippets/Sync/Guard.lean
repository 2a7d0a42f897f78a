import Snippets.Sync.Plan

/-!
# The sync guard

A sync that is asked for while the user types waits for the next tick, and one that was carried out
settles for one more tick. Until then every other request is dropped. A waiting sync counts only
while nothing was issued after it and its session is still on top.
-/

namespace Snippets.Sync

inductive Phase where
  | idle
  | scheduled (op session : Nat)
  | settling (op : Nat)
  deriving DecidableEq, Repr

structure Guard where
  phase : Phase := .idle
  /-- The operation id that was issued last. -/
  latest : Nat := 0
  deriving DecidableEq, Repr

inductive Outcome where
  | applied (op replaced : Nat)
  | scheduled (op : Nat)
  | skipped (reason : SkipReason)
  deriving DecidableEq, Repr

def Outcome.isApplied : Outcome → Bool
  | applied _ _ => true
  | _ => false

namespace Guard

def inFlight (g : Guard) : Bool := g.phase != .idle

def settle (g : Guard) : Guard := { g with phase := .idle }

def issue (g : Guard) : Guard := { g with latest := g.latest + 1 }

def isCurrent (g : Guard) (op session : Nat) (stack : Stack) : Bool :=
  op == g.latest && stack.top?.map (·.id) == some session

def request (g : Guard) (stack : Stack) : Outcome × Guard :=
  if g.inFlight then (.skipped .inFlight, g)
  else match stack.top? with
    | none => (.skipped .noSession, g)
    | some top => (.scheduled g.issue.latest, ⟨.scheduled g.issue.latest top.id, g.issue.latest⟩)

end Guard

end Snippets.Sync
