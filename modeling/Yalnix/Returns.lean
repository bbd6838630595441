import Yalnix.Births
import Yalnix.CurrProc

namespace Yalnix.Returns

open Loops Machine LoadProgram Processes Queues Kernel Calls Boot Runs Clock CurrProc Births

variable {env : BootEnv} {s t u v : State} {info out : ExceptionInfo} {c : Context} {e : Event} {n q : Nat}

structure KeepsContext (q : Nat) (s t : State) : Prop where
  ctx : t.ctx q = s.ctx q
  cpu : t.mode = .user → t.cpu = s.cpu

theorem KeepsContext.refl (q : Nat) (s : State) : KeepsContext q s s := ⟨rfl, fun _ => rfl⟩

end Yalnix.Returns
