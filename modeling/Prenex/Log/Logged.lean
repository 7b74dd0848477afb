/-!
# Values with a log

A result together with the events on the way to it.
-/

namespace Prenex.Log

structure Logged (ε α : Type) where
  value : α
  events : List ε

instance {ε : Type} : Monad (Logged ε) where
  pure a := ⟨a, []⟩
  bind x f :=
    let y := f x.value
    ⟨y.value, x.events ++ y.events⟩

@[simp] theorem value_pure {ε α : Type} (a : α) : (pure a : Logged ε α).value = a := rfl

@[simp] theorem value_bind {ε α β : Type} (x : Logged ε α) (f : α → Logged ε β) :
    (x >>= f).value = (f x.value).value := rfl

/-- Notes an event. -/
def note {ε : Type} (e : ε) : Logged ε Unit := ⟨(), [e]⟩

end Prenex.Log
