import Lestra.Exec.Pipe

/-!
# Descriptor tables

`fd_table_init`, `fd_table_copy` and `fd_table_close_all` of `kernel/sched/scheduler.c`.
The copy is the assignment of the whole table. What `vfs_close` does to the files of
the VFS is not part of this state.
-/

namespace Lestra

/-- `O_RDONLY`, `O_WRONLY` of `vfs.h`. -/
def oRdonly : BitVec 32 := 0x0001#32

def oWronly : BitVec 32 := 0x0002#32

abbrev FdTable := Fin maxFdPerProc → FdEntry

/-- The table of `fd_table_init`. -/
def fdTableInit : FdTable := fun i =>
  match i.val with
  | 0 => ⟨.special, 0, 0, oRdonly⟩
  | 1 => ⟨.special, 1, 0, oWronly⟩
  | 2 => ⟨.special, 2, 0, oWronly⟩
  | _ => fdUnused

/-- `vfs_close` or `pipe_close`, by the type of the descriptor. -/
def closeResource (t : PipeTable) (e : FdEntry) : PipeTable :=
  match e.type with
  | .pipe => (pipeClose t e.resource).1
  | _ => t

/-- `fd_table_close_all` -/
def fdTableCloseAll (t : PipeTable) (fds : FdTable) : PipeTable × FdTable :=
  ((List.finRange maxFdPerProc).foldl (fun t i => closeResource t (fds i)) t,
    fun i => if (fds i).type = .unused then fds i else fdUnused)

end Lestra
