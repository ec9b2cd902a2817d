/-!
# Loops that end

Reading repeats a step until it has come to something else. Each pass of such a loop takes something
from what is left to read, so a size of the state bounds the number of passes.
-/
namespace TemplateSyntax

/-- Repeat a step for as long as it asks to go on and has made the state smaller. -/
def loop {ε σ β : Type} (size : σ → Nat) (step : β → EStateM ε σ (ForInStep β)) (value : β) :
    EStateM ε σ β := fun s =>
  match step value s with
  | .ok (.done value) t => .ok value t
  | .ok (.yield value) t => if size t < size s then loop size step value t else .ok value t
  | .error e t => .error e t
termination_by s => size s

end TemplateSyntax
