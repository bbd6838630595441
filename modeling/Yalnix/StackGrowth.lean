import Yalnix.ExitFrames

namespace Yalnix.StackGrowth

open Loops Machine AddressSpace LoadProgram Processes Queues Kernel Accesses FreeList Allocation Calls ExitFrames Runs

variable {m m' : Memory} {w : Word} {s t : State} {info : ExceptionInfo} {limit brk sp v : Nat}

/-- Above the invalid pages there are the heap below `brk`, the stack from `sp` up to
`limit`, and the kernel stack. -/
structure HeapAndStack (m : Memory) (w : Word) (limit brk sp : Nat) : Prop where
  apart : brk ≤ sp
  stack : sp ≤ limit
  below : limit ≤ kernelStackBase
  valid : ∀ j < pageTableLen, (w.read m j).valid = true ↔
    (memInvalidPages ≤ j ∧ j < brk) ∨ (sp ≤ j ∧ j < limit) ∨ kernelStackBase ≤ j

def page (info : ExceptionInfo) : Nat := info.addr / pageSize

theorem toUlong_page (h : info.addr ≤ kernelStackBase * pageSize) : toUlong (downToPage info.addr) = page info := by
  have haddr : info.addr < 2 ^ 63 := Nat.lt_of_le_of_lt h (by decide)
  have hdown : downToPage info.addr = (page info : Nat) := by
    rw [downToPage, toLong_nat haddr]
    rfl
  rw [hdown]
  apply toUlong_nat
  exact Nat.lt_of_le_of_lt (Nat.div_le_self ..) (Nat.lt_trans haddr (by decide))

theorem growsStack_iff : growsStack s info = true ↔ info.code = trapMemoryMaperr ∧
    info.addr ≤ kernelStackBase * pageSize ∧ (s.mem.space s.curr).brk ≤ page info := by
  simp only [growsStack, decide_eq_true_eq, Nat.not_lt]
  refine and_congr_right fun _ => and_congr_right fun haddr => ?_
  rw [toUlong_page haddr]

end Yalnix.StackGrowth
