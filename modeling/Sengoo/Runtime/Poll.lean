/-!
What the futures of the runtime have in common: the status codes and the life of
a future between its polls.
-/

namespace Sengoo.Runtime

def statusInvalidArgument : Int := 2
def statusInvalidHandle : Int := 3
def statusLockUnavailable : Int := 11
def pollErrorReentrant : Int := -2
def pollErrorCompleted : Int := -3

inductive PollLifecycle where
  | idle
  | polling
  | completed
  deriving DecidableEq

def PollLifecycle.enter : PollLifecycle → Except Int Unit
  | .idle => .ok ()
  | .polling => .error pollErrorReentrant
  | .completed => .error pollErrorCompleted

end Sengoo.Runtime
