/-!
# Logged results

A computation that may fail and that reports its progress.  What was reported stays reported when the computation
fails later on.  `result` forgets the messages; it commutes with sequencing, so that facts about results can leave the
messages out.
-/
namespace MiniJava

inductive Level where
  | info | debug | trace
  deriving DecidableEq, Repr

structure Message where
  level : Level
  text : String
  deriving DecidableEq, Repr

structure Logged (ε α : Type) where
  log : List Message
  result : Except ε α

namespace Logged

variable {ε α β : Type}

protected def pure (a : α) : Logged ε α := ⟨[], .ok a⟩

/-- A failure ends the computation, and with it the messages. -/
protected def bind (x : Logged ε α) (f : α → Logged ε β) : Logged ε β :=
  match x.result with
  | .ok a => ⟨x.log ++ (f a).log, (f a).result⟩
  | .error e => ⟨x.log, .error e⟩

instance : Monad (Logged ε) where
  pure := Logged.pure
  bind := Logged.bind

/-- A result that comes without messages. -/
def ofExcept (r : Except ε α) : Logged ε α := ⟨[], r⟩

instance : MonadLift (Except ε) (Logged ε) := ⟨ofExcept⟩

/-- Reports a message. -/
def note (level : Level) (text : String) : Logged ε Unit := ⟨[⟨level, text⟩], .ok ()⟩

/-- The same computation, its failure described otherwise. -/
def mapError {ε' : Type} (f : ε → ε') (x : Logged ε α) : Logged ε' α := ⟨x.log, x.result.mapError f⟩

@[simp] theorem result_pure (a : α) : (pure a : Logged ε α).result = .ok a := rfl

@[simp] theorem result_bind (x : Logged ε α) (f : α → Logged ε β) :
    (x >>= f).result = x.result >>= fun a => (f a).result := by
  show (Logged.bind x f).result = _
  unfold Logged.bind
  cases x.result <;> rfl

@[simp] theorem result_ofExcept (r : Except ε α) : (ofExcept r).result = r := rfl

@[simp] theorem result_liftM (r : Except ε α) : (liftM r : Logged ε α).result = r := rfl

@[simp] theorem result_note (level : Level) (text : String) : (note level text : Logged ε Unit).result = .ok () := rfl

@[simp] theorem result_mapError {ε' : Type} (f : ε → ε') (x : Logged ε α) :
    (x.mapError f).result = x.result.mapError f := rfl

end Logged

end MiniJava
