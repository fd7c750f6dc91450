import FileSync.Support.Program
import FileSync.Os.Directories
import FileSync.Os.WellFormed
import FileSync.Proto

/-!
# System — what the program runs against

The calls a command makes to the operating system and to its peer.  A path is given as the byte
string the program passes; the system resolves it.  A file that was opened for writing is named by
its path: the program holds one such handle at a time and renames or removes the file only after
closing it.

* `Cmd α` is a piece of the program that returns an `α`.
* `World` is the file system and the state of the peer; `handle peer` answers the calls in it, with
  the replies of `peer`.  There are no links in it, and no call fails that could be done; a world
  with links and calls that fail are in `Cli.Links` and `Cli.Unsteady`.
* `scripted` is a peer that plays back a list of replies: whatever a peer does over a run is such a
  list.
-/

namespace FileSync

open Filepath
open Proto (Request Exchange Stage)

/-- The calls that change the file system. -/
inductive Change
  | mkdirAll (path : Bytes) (mode : UInt32)
  | openTrunc (path : Bytes) (mode : UInt32)
  | write (path : Bytes) (data : Bytes)
  | rename (src dst : Bytes)
  | remove (path : Bytes)
  | chmod (path : Bytes) (mode : UInt32)
deriving DecidableEq

inductive Op
  | stat (path : Bytes)
  | openRead (path : Bytes)
  | readAll (path : Bytes)
  | readTree (path : Bytes)
  | walkTree (path : Bytes)
  | change (c : Change)
  | exchange (req : Request)
deriving DecidableEq

/-- What a call is answered with. -/
def Op.Resp : Op → Type
  | .stat _ => Except Errno Os.Entry
  | .openRead _ => Except Errno Unit
  | .readAll _ => Except Errno Bytes
  | .readTree _ => Except Errno Os.Entry
  | .walkTree _ => Except Errno Os.Entry
  | .change _ => Except Errno Unit
  | .exchange _ => Exchange

abbrev Cmd (α : Type) := Prog Op Op.Resp α

/-! ### The calls -/

namespace Sys

/-- `os.Stat`. -/
def stat (path : Bytes) : Cmd (Except Errno Os.Entry) := .call (.stat path) .ret

/-- `os.Open`, which also opens a directory. -/
def openRead (path : Bytes) : Cmd (Except Errno Unit) := .call (.openRead path) .ret

/-- `io.ReadFull` of a whole open file, which fails on a directory. -/
def readAll (path : Bytes) : Cmd (Except Errno Bytes) := .call (.readAll path) .ret

/-- Everything below `path`, as `os.Stat` of it and `os.ReadDir` of each directory below it find
it, with the content of each file. -/
def readTree (path : Bytes) : Cmd (Except Errno Os.Entry) := .call (.readTree path) .ret

/-- Everything below `path`, as `filepath.Walk` finds it: that begins with `os.Lstat`, and opens no
file. -/
def walkTree (path : Bytes) : Cmd (Except Errno Os.Entry) := .call (.walkTree path) .ret

def change (c : Change) : Cmd (Except Errno Unit) := .call (.change c) .ret

/-- `os.MkdirAll`. -/
abbrev mkdirAll (path : Bytes) (mode : UInt32) : Cmd (Except Errno Unit) :=
  change (.mkdirAll path mode)

/-- `os.OpenFile` with `O_WRONLY|O_CREATE|O_TRUNC`, and `os.Create`. -/
abbrev openTrunc (path : Bytes) (mode : UInt32) : Cmd (Except Errno Unit) :=
  change (.openTrunc path mode)

/-- `f.Write`, on the file opened at `path`. -/
abbrev write (path data : Bytes) : Cmd (Except Errno Unit) := change (.write path data)

/-- `os.Rename`. -/
abbrev rename (src dst : Bytes) : Cmd (Except Errno Unit) := change (.rename src dst)

/-- `os.Remove`. -/
abbrev remove (path : Bytes) : Cmd (Except Errno Unit) := change (.remove path)

/-- `os.Chmod`. -/
abbrev chmod (path : Bytes) (mode : UInt32) : Cmd (Except Errno Unit) := change (.chmod path mode)

/-- A request to the peer over a stream of its own, and its reply. -/
def exchange (req : Request) : Cmd Exchange := .call (.exchange req) .ret

section Runs

variable {σ α : Type} {h : Prog.Handler Op Op.Resp σ} {s : σ} {path : Bytes}

/-! A command that begins with a call goes on with its answer. -/

theorem run_openRead {k : Except Errno Unit → Cmd α} :
    (openRead path >>= k).run h s =
      (k (h (.openRead path) s).1).run h (h (.openRead path) s).2 := rfl

theorem run_readAll {k : Except Errno Bytes → Cmd α} :
    (readAll path >>= k).run h s =
      (k (h (.readAll path) s).1).run h (h (.readAll path) s).2 := rfl

theorem run_walkTree {k : Except Errno Os.Entry → Cmd α} :
    (walkTree path >>= k).run h s =
      (k (h (.walkTree path) s).1).run h (h (.walkTree path) s).2 := rfl

end Runs

end Sys

/-! ### The world -/

/-- The file system, the process's umask and the peer's state. -/
structure World (ν : Type) where
  fs : Os.Fs
  umask : UInt32
  net : ν

variable {ν : Type}

/-- The bit of `fs.ModeSticky`. -/
def modeSticky : UInt32 := 0x100000

/-- The bits a new entry gets: its permissions without those of the umask, and the sticky bit. -/
def perm (umask mode : UInt32) : UInt32 := mode &&& modeSticky ||| mode &&& 0o777 &&& ~~~umask

/-- What a change makes of the file system. -/
def Change.apply (fs : Os.Fs) (umask : UInt32) : Change → Except Errno Os.Fs
  | .mkdirAll path mode => Os.mkdirAll fs (resolve path) (perm umask mode)
  | .openTrunc path mode => Os.createTrunc fs (resolve path) (perm umask mode)
  | .write path data => Os.append fs (resolve path) data
  | .rename src dst => Os.rename fs (resolve src) (resolve dst)
  | .remove path => Os.remove fs (resolve path)
  | .chmod path mode => Os.chmod fs (resolve path) (mode &&& Os.modeBits)

/-- The world after a change, which is the world before it if the change failed. -/
def World.after (w : World ν) : Except Errno Os.Fs → Except Errno Unit × World ν
  | .ok fs => (.ok (), { w with fs := fs })
  | .error e => (.error e, w)

/-- The answers to the calls, with the replies of `peer`. -/
def handle (peer : Request → ν → Exchange × ν) : Prog.Handler Op Op.Resp (World ν)
  | .stat path, w => (Os.stat w.fs (resolve path), w)
  | .openRead path, w => ((Os.stat w.fs (resolve path)).map fun _ => (), w)
  | .readAll path, w => (Os.read w.fs (resolve path), w)
  | .readTree path, w => (Os.stat w.fs (resolve path), w)
  | .walkTree path, w => (Os.stat w.fs (resolve path), w)
  | .change c, w => w.after (c.apply w.fs w.umask)
  | .exchange req, w => ((peer req w.net).1, { w with net := (peer req w.net).2 })

/-- A peer that plays back replies, and is gone after the last. -/
def scripted : Request → List Exchange → Exchange × List Exchange
  | _, [] => (.error (.opening, .eof), [])
  | _, reply :: rest => (reply, rest)

/-! ### Rules for the calls -/

section Rules

variable {α : Type} {peer : Request → ν → Exchange × ν} {I : World ν → Prop}
  {Q : α → World ν → Prop} {w : World ν}

theorem wp_stat {path : Bytes} {k : Except Errno Os.Entry → Cmd α} :
    Prog.wp (handle peer) I (Sys.stat path >>= k) Q w ↔
      I w ∧ Prog.wp (handle peer) I (k (Os.stat w.fs (resolve path))) Q w := Iff.rfl

theorem wp_openRead {path : Bytes} {k : Except Errno Unit → Cmd α} :
    Prog.wp (handle peer) I (Sys.openRead path >>= k) Q w ↔
      I w ∧ Prog.wp (handle peer) I (k ((Os.stat w.fs (resolve path)).map fun _ => ())) Q w :=
  Iff.rfl

theorem wp_readAll {path : Bytes} {k : Except Errno Bytes → Cmd α} :
    Prog.wp (handle peer) I (Sys.readAll path >>= k) Q w ↔
      I w ∧ Prog.wp (handle peer) I (k (Os.read w.fs (resolve path))) Q w := Iff.rfl

theorem wp_readTree {path : Bytes} {k : Except Errno Os.Entry → Cmd α} :
    Prog.wp (handle peer) I (Sys.readTree path >>= k) Q w ↔
      I w ∧ Prog.wp (handle peer) I (k (Os.stat w.fs (resolve path))) Q w := Iff.rfl

theorem wp_walkTree {path : Bytes} {k : Except Errno Os.Entry → Cmd α} :
    Prog.wp (handle peer) I (Sys.walkTree path >>= k) Q w ↔
      I w ∧ Prog.wp (handle peer) I (k (Os.stat w.fs (resolve path))) Q w := Iff.rfl

theorem wp_exchange {req : Request} {k : Exchange → Cmd α} :
    Prog.wp (handle peer) I (Sys.exchange req >>= k) Q w ↔
      I { w with net := (peer req w.net).2 } ∧
        Prog.wp (handle peer) I (k (peer req w.net).1) Q { w with net := (peer req w.net).2 } :=
  Iff.rfl

/-- A change fails and leaves the world, or succeeds. -/
theorem wp_change {c : Change} {k : Except Errno Unit → Cmd α}
    (herr : ∀ e, c.apply w.fs w.umask = .error e →
      I w ∧ Prog.wp (handle peer) I (k (.error e)) Q w)
    (hok : ∀ fs, c.apply w.fs w.umask = .ok fs →
      I { w with fs := fs } ∧ Prog.wp (handle peer) I (k (.ok ())) Q { w with fs := fs }) :
    Prog.wp (handle peer) I (Sys.change c >>= k) Q w := by
  have hstep : Prog.wp (handle peer) I (Sys.change c >>= k) Q w ↔
      I (w.after (c.apply w.fs w.umask)).2 ∧ Prog.wp (handle peer) I
        (k (w.after (c.apply w.fs w.umask)).1) Q (w.after (c.apply w.fs w.umask)).2 := Iff.rfl
  rw [hstep]
  cases hr : c.apply w.fs w.umask with
  | error e => exact herr e hr
  | ok fs => exact hok fs hr

end Rules

/-! ### What changes keep -/

/-- The change removes and renames nothing. -/
def Change.Builds : Change → Prop
  | .rename .. => False
  | .remove _ => False
  | _ => True

theorem isDir_apply {fs fs' : Os.Fs} {umask : UInt32} {c : Change} (hc : c.Builds)
    (hok : c.apply fs umask = .ok fs') {p : List Bytes} (h : Os.IsDir fs p) : Os.IsDir fs' p := by
  cases c with
  | mkdirAll path mode => exact h.mkdirAll hok
  | openTrunc path mode => exact h.createTrunc hok
  | write path data => exact h.append hok
  | rename src dst => exact hc.elim
  | remove path => exact hc.elim
  | chmod path mode => exact h.chmod hok

/-- The change leaves what stands at `p`. -/
def Change.Spares (p : List Bytes) : Change → Prop
  | .mkdirAll path _ => ¬ p <+: resolve path
  | .openTrunc path _ => resolve path ≠ p
  | .write path _ => resolve path ≠ p
  | .rename src dst => resolve src ≠ p ∧ resolve dst ≠ p
  | .remove path => resolve path ≠ p
  | .chmod path _ => resolve path ≠ p

theorem view_apply {fs fs' : Os.Fs} {umask : UInt32} {c : Change} {p : List Bytes}
    (hc : c.Spares p) (hok : c.apply fs umask = .ok fs') : Os.view fs' p = Os.view fs p := by
  cases c with
  | mkdirAll path mode => rw [(Os.mkdirAll_ok hok).2, if_neg fun h => hc h.1]
  | openTrunc path mode =>
    obtain ⟨m, hview, -⟩ := Os.createTrunc_ok hok
    rw [hview, Function.update_of_ne (Ne.symm hc)]
  | write path data =>
    obtain ⟨m, c, -, hview⟩ := Os.append_ok hok
    rw [hview, Function.update_of_ne (Ne.symm hc)]
  | rename src dst =>
    obtain ⟨m, c, -, hview⟩ := Os.rename_ok hok
    rw [hview, Function.update_of_ne hc.2.symm, Function.update_of_ne hc.1.symm]
  | remove path => rw [Os.remove_ok hok, Function.update_of_ne (Ne.symm hc)]
  | chmod path mode =>
    obtain ⟨k, -, hview⟩ := Os.chmod_ok hok
    rw [hview, Function.update_of_ne (Ne.symm hc)]

/-! ### Directories stay well formed -/

theorem wf_apply {fs fs' : Os.Fs} {umask : UInt32} (h : fs.WF) (c : Change)
    (hok : c.apply fs umask = .ok fs') : fs'.WF := by
  have hplain (path : Bytes) : ∀ c ∈ resolve path, Plain c := fun _ => plain_of_mem_resolve
  cases c with
  | mkdirAll path mode => exact Os.wf_mkdirAll (hplain path) h hok
  | openTrunc path mode => exact Os.wf_createTrunc (hplain path) h hok
  | write path data => exact Os.wf_append (hplain path) h hok
  | rename src dst => exact Os.wf_rename (hplain src) (hplain dst) h hok
  | remove path => exact Os.wf_remove (hplain path) h hok
  | chmod path mode => exact Os.wf_chmod (hplain path) h hok

theorem wf_handle (peer : Request → ν → Exchange × ν) (o : Op) (w : World ν) (h : w.fs.WF) :
    (handle peer o w).2.fs.WF := by
  cases o with
  | change c =>
    simp only [handle]
    cases hok : c.apply w.fs w.umask with
    | error e => exact h
    | ok fs => exact wf_apply h c hok
  | stat | openRead | readAll | readTree | walkTree | exchange => exact h

/-- Whatever a command does, names stay distinct in every directory. -/
theorem wp_wf {α : Type} {peer : Request → ν → Exchange × ν} {I : World ν → Prop}
    {Q : α → World ν → Prop} {p : Cmd α} {w : World ν} (hp : Prog.wp (handle peer) I p Q w)
    (hw : w.fs.WF) : Prog.wp (handle peer) I p (fun a w' => Q a w' ∧ w'.fs.WF) w :=
  Prog.wp_and hp (Prog.wp_invariant (I := fun w : World ν => w.fs.WF) (wf_handle peer) hw)

end FileSync
