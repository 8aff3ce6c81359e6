import PrivateSums.Deployment.Error

/-!
The checkers a server keeps for one leader, which are lent and come back. A borrower takes a permit
and then a checker, and returns them in the opposite order, so that a permit promises a checker.
-/

namespace PrivateSums

structure CheckerPool where
  leader : Nat
  /-- The checkers at rest; the first is lent next. -/
  idle : List Checker
  permits : Nat

namespace CheckerPool

/-- A pool of these checkers, the last of which is lent first. -/
def ofCheckers (leader : Nat) (checkers : List Checker) : CheckerPool :=
  { leader, idle := checkers.reverse, permits := checkers.length }

/-- The number of checkers that are not lent. -/
def available (p : CheckerPool) : Nat := p.permits

/-- Takes a permit. Without one the borrower waits. -/
def takePermit? (p : CheckerPool) : Option CheckerPool :=
  match p.permits with
  | 0 => none
  | permits + 1 => some { p with permits }

/-- Takes the checker that a permit promises. -/
def takeChecker (p : CheckerPool) : Except ServerError (Checker × CheckerPool) :=
  match p.idle with
  | [] => .error (.poolClosed p.leader)
  | k :: idle => .ok (k, { p with idle })

def giveChecker (p : CheckerPool) (k : Checker) : CheckerPool :=
  { p with idle := k.reset :: p.idle }

def givePermit (p : CheckerPool) : CheckerPool := { p with permits := p.permits + 1 }

/-- Borrows a checker, both steps at once. -/
def acquire? (p : CheckerPool) : Option (Except ServerError (Checker × CheckerPool)) :=
  p.takePermit?.map takeChecker

/-- Takes a checker back, whatever its request came to. -/
def release (p : CheckerPool) (k : Checker) : CheckerPool := (p.giveChecker k).givePermit

end CheckerPool

end PrivateSums
