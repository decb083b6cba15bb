import Mathlib
import Xv6.Fs.Format

/-!
# System calls on names (`kernel/sysfile.c`, `kernel/fs.c`, `kernel/file.c`)

The file system as the system calls that create, link, unlink and open names see it: the
inodes with their type, device numbers, link count and, for a directory, its entries; the
inode table; the open files; the processes' current directories and descriptors.

A directory's contents are its dirents, one per `sizeof(struct dirent)` bytes of its size,
as `readi` and `writei` read and write them; the contents of other files and the blocks that
hold them are not modelled here. Every path below writes a changed inode back with
`iupdate`, so a change is made to the inode itself. A call that reaches a `panic` returns
`none`.

* `iget`, `idup`, `ilock`, `iput`, `ialloc`: the inode table;
* `dirlookup`, `dirlink`, `skipelem`, `namex`: directories and path names;
* `create`, `sysLink`, `sysUnlink`, `sysOpen`, `sysMkdir`, `sysMknod`, `sysChdir`,
  `fileclose`, `sysClose`, `exit`, `fork`: the system calls, and `step`, `run` over them;
* `boot`: the file system `mkfs` writes, with `init` in `/`.
-/

namespace Xv6.Names

/-- `struct dirent`; a free slot has `inum = 0`. `name` holds the bytes before the NUL. -/
structure Dirent where
  inum : ℕ
  name : List Char
  deriving DecidableEq, Repr

/-- `namecmp`: names compare on their first `DIRSIZ` bytes. -/
def namecmp (a b : List Char) : Bool := a.take DIRSIZ == b.take DIRSIZ

/-- An inode: its type (`none` for a free inode), device numbers, link count, and a
directory's entries. -/
structure Node where
  type : Option FileType
  major : ℤ
  minor : ℤ
  nlink : ℕ
  entries : List Dirent

/-- An entry of the inode table: the inode it holds, `ref` and `valid`. -/
structure Entry where
  inum : ℕ
  ref : ℕ
  valid : Bool

/-- The types of open files (`FD_PIPE` files are not modelled here). -/
inductive FdType
  | none
  | inode
  | device
  deriving DecidableEq, Repr

/-- `struct file`. -/
structure File where
  type : FdType
  ref : ℕ
  readable : Bool
  writable : Bool
  ip : Fin NINODE
  off : ℕ
  major : ℤ

/-- The states of a process slot that matter here. -/
inductive ProcState
  | unused
  | live
  | zombie
  deriving DecidableEq, Repr

/-- A process: its state, current directory and open files. -/
structure Proc where
  state : ProcState
  cwd : Fin NINODE
  ofile : Fin NOFILE → Option (Fin NFILE)

/-- The inodes, the inode table, the file table and the process table. -/
structure Sys where
  node : ℕ → Node
  itable : Fin NINODE → Entry
  file : Fin NFILE → File
  proc : Fin NPROC → Proc
  /-- Whether `balloc` finds a free block. The disk's blocks are not modelled here: the blocks
  of a directory are those below its size, and a call that needs a new one gets it exactly
  when the disk has room. -/
  room : Bool

namespace Sys

variable (s : Sys)

/-- The inode held by entry `i` of the inode table. -/
def ino (i : Fin NINODE) : Node := s.node (s.itable i).inum

def setNode (inum : ℕ) (n : Node) : Sys := { s with node := Function.update s.node inum n }
def setEntry (i : Fin NINODE) (e : Entry) : Sys := { s with itable := Function.update s.itable i e }
def setFile (f : Fin NFILE) (x : File) : Sys := { s with file := Function.update s.file f x }
def setProc (p : Fin NPROC) (x : Proc) : Sys := { s with proc := Function.update s.proc p x }

end Sys

/-- A `short` field: the value modulo `2^16`, as a signed number. -/
def toShort (x : ℤ) : ℤ := Int.bmod x (2 ^ 16)

section Calls

variable (ninodes : ℕ)

/-! ## The inode table -/

/-- `iget(dev, inum)`: the entry already holding the inode, with one more reference, or else
the first free entry; `none` for `panic("iget: no inodes")`. -/
def iget (s : Sys) (inum : ℕ) : Option (Fin NINODE × Sys) :=
  match (List.finRange NINODE).find? (fun i =>
      decide (0 < (s.itable i).ref) && (s.itable i).inum == inum) with
  | some i => some (i, s.setEntry i { s.itable i with ref := (s.itable i).ref + 1 })
  | none =>
    match (List.finRange NINODE).find? (fun i => (s.itable i).ref == 0) with
    | some i => some (i, s.setEntry i ⟨inum, 1, false⟩)
    | none => none

/-- `idup(ip)`. -/
def idup (s : Sys) (i : Fin NINODE) : Sys := s.setEntry i { s.itable i with ref := (s.itable i).ref + 1 }

/-- `ilock(ip)`; `none` for `panic("ilock")` and `panic("ilock: no type")`. -/
def ilock (s : Sys) (i : Fin NINODE) : Option Sys :=
  if (s.itable i).ref < 1 then none
  else if (s.itable i).valid then some s
  else if (s.ino i).type = none then none
  else some (s.setEntry i { s.itable i with valid := true })

/-- `iput(ip)`: the last reference to a valid inode without links truncates and frees it. -/
def iput (s : Sys) (i : Fin NINODE) : Sys :=
  let s := if (s.itable i).ref = 1 ∧ (s.itable i).valid = true ∧ (s.ino i).nlink = 0 then
      (s.setNode (s.itable i).inum { s.ino i with type := none, entries := [] }).setEntry i
        { s.itable i with valid := false }
    else s
  s.setEntry i { s.itable i with ref := (s.itable i).ref - 1 }

/-- `ialloc(dev, type)`: the first free inode from `1` on, zeroed and given its type;
`none` for `panic("ialloc: no inodes")`. -/
def ialloc (s : Sys) (type : FileType) : Option (Fin NINODE × Sys) :=
  match (List.range' 1 (ninodes - 1)).find? (fun inum => (s.node inum).type.isNone) with
  | some inum => iget (s.setNode inum ⟨some type, 0, 0, 0, []⟩) inum
  | none => none

/-! ## Directories and path names -/

/-- The first entry in use named `name`, with its index. -/
def findName (es : List Dirent) (name : List Char) : Option (Dirent × ℕ) :=
  es.zipIdx.find? fun p => p.1.inum != 0 && namecmp name p.1.name

/-- `dirlookup(dp, name, &off)`: the entry named `name` and its index, its inode from
`iget`; `none` for `panic("dirlookup not DIR")`. -/
def dirlookup (s : Sys) (dp : Fin NINODE) (name : List Char) :
    Option (Option (Fin NINODE × ℕ) × Sys) :=
  if (s.ino dp).type ≠ some .dir then none
  else match findName (s.ino dp).entries name with
    | some (e, off) => (iget s e.inum).map fun (ip, s) => (some (ip, off), s)
    | none => some (none, s)

/-- A dirent written at index `off`: over an entry, or just past the last one. -/
def writeEntry (es : List Dirent) (off : ℕ) (e : Dirent) : List Dirent :=
  if off < es.length then es.set off e else es ++ [e]

/-- `dirlink(dp, name, inum)`: `false` if the name is present; otherwise the entry goes into
the first free slot, or past the end. `none` for `panic("dirlink")`, when `writei` refuses
to grow the directory past `MAXFILE` blocks, and for `panic("balloc: out of blocks")`, when
the entry goes past the end at a block boundary, so that `writei`'s `bmap` allocates a block,
and the disk has no room. -/
def dirlink (s : Sys) (dp : Fin NINODE) (name : List Char) (inum : ℕ) : Option (Bool × Sys) :=
  match dirlookup s dp name with
  | none => none
  | some (some (ip, _), s) => some (false, iput s ip)
  | some (none, s) =>
    let es := (s.ino dp).entries
    let off := (es.findIdx? fun e => e.inum == 0).getD es.length
    if MAXFILE * BSIZE < (off + 1) * DIRENT_SIZE then none
    else if off = es.length ∧ off * DIRENT_SIZE % BSIZE = 0 ∧ s.room = false then none
    else some (true, s.setNode (s.itable dp).inum
      { s.ino dp with entries := writeEntry es off ⟨inum % 2 ^ 16, name.take DIRSIZ⟩ })

/-- `skipelem(path, name)`: the next element, cut to `DIRSIZ` bytes, and the path after it
and its slashes; `none` when no element is left. -/
def skipelem (path : List Char) : Option (List Char × List Char) :=
  let path := path.dropWhile (· = '/')
  if path = [] then none
  else some ((path.takeWhile (· ≠ '/')).take DIRSIZ,
    (path.dropWhile (· ≠ '/')).dropWhile (· = '/'))

theorem skipelem_length_lt {path name rest : List Char} (h : skipelem path = some (name, rest)) :
    rest.length < path.length := by
  unfold skipelem at h
  generalize hq : path.dropWhile (· = '/') = q at h
  simp only at h
  split at h
  · cases h
  · next hne =>
    obtain ⟨-, rfl⟩ := Prod.mk.inj (Option.some.inj h)
    obtain ⟨c, cs, rfl⟩ := List.exists_cons_of_ne_nil hne
    -- what is left after the leading slashes starts with another character
    have hc : ¬ c = '/' := by
      have := List.head_dropWhile_not (fun x => decide (x = '/')) (l := path) (by rw [hq]; simp)
      simpa [hq] using this
    have h₁ := (List.dropWhile_sublist (l := (c :: cs).dropWhile (· ≠ '/')) (· = '/')).length_le
    have h₂ : ((c :: cs).dropWhile (· ≠ '/')).length ≤ cs.length := by
      rw [List.dropWhile_cons_of_pos (by simpa using hc)]
      exact (List.dropWhile_sublist _).length_le
    have h₃ : (c :: cs).length ≤ path.length := hq ▸ (List.dropWhile_sublist _).length_le
    simp only [List.length_cons] at h₃
    omega

/-- `namex`'s loop from inode `ip` over the rest `path`, `name` holding the last element
read; with `parent` it stops one element early. Each pass takes at least one character
off the path, so `namex` gives it the path's length as `fuel`. -/
def namexLoop (s : Sys) (parent : Bool) (ip : Fin NINODE) :
    ℕ → List Char → List Char → Option (Option (Fin NINODE × List Char) × Sys)
  | fuel, path, name =>
    match skipelem path, fuel with
    | none, _ => if parent then some (none, iput s ip) else some (some (ip, name), s)
    | some _, 0 => none
    | some (elem, rest), fuel + 1 =>
      match ilock s ip with
      | none => none
      | some s =>
        if (s.ino ip).type ≠ some .dir then some (none, iput s ip)
        else if parent ∧ rest = [] then some (some (ip, elem), s)
        else match dirlookup s ip elem with
          | none => none
          | some (none, s) => some (none, iput s ip)
          | some (some (next, _), s) => namexLoop (iput s ip) parent next fuel rest elem

/-- `namex(path, nameiparent, name)`: from `/` for an absolute path, else from the current
directory of process `p`. -/
def namex (s : Sys) (p : Fin NPROC) (path : List Char) (parent : Bool) :
    Option (Option (Fin NINODE × List Char) × Sys) :=
  let start := if path.head? = some '/' then iget s ROOTINO
    else some ((s.proc p).cwd, idup s (s.proc p).cwd)
  match start with
  | none => none
  | some (ip, s) => namexLoop s parent ip path.length path []

/-- `namei(path)`. -/
def namei (s : Sys) (p : Fin NPROC) (path : List Char) : Option (Option (Fin NINODE) × Sys) :=
  (namex s p path false).map fun (r, s) => (r.map Prod.fst, s)

/-- `nameiparent(path, name)`. -/
def nameiparent (s : Sys) (p : Fin NPROC) (path : List Char) :
    Option (Option (Fin NINODE × List Char) × Sys) :=
  namex s p path true

/-! ## The system calls -/

/-- `create`'s steps for a new directory `ip` in `dp`: `dp->nlink++` for `..`, then the `.`
and `..` entries; `none` for `panic("create dots")`. -/
def mkdots (s : Sys) (dp ip : Fin NINODE) : Option Sys :=
  let dinum := (s.itable dp).inum
  let s := s.setNode dinum { s.node dinum with nlink := (s.node dinum).nlink + 1 }
  match dirlink s ip ['.'] (s.itable ip).inum with
  | some (true, s) =>
    match dirlink s ip ['.', '.'] dinum with
    | some (true, s) => some s
    | _ => none
  | _ => none

/-- `create(path, type, major, minor)`: the new inode, locked, with one link and its entry
in the parent; or, for a file, an existing file or device of that name. -/
def create (s : Sys) (p : Fin NPROC) (path : List Char) (type : FileType) (major minor : ℤ) :
    Option (Option (Fin NINODE) × Sys) :=
  match nameiparent s p path with
  | none => none
  | some (none, s) => some (none, s)
  | some (some (dp, name), s) =>
    match ilock s dp with
    | none => none
    | some s =>
      match dirlookup s dp name with
      | none => none
      | some (some (ip, _), s) =>
        match ilock (iput s dp) ip with
        | none => none
        | some s =>
          if type = .file ∧ ((s.ino ip).type = some .file ∨ (s.ino ip).type = some .device) then
            some (some ip, s)
          else some (none, iput s ip)
      | some (none, s) =>
        match ialloc ninodes s type with
        | none => none
        | some (ip, s) =>
          match ilock s ip with
          | none => none
          | some s =>
            let inum := (s.itable ip).inum
            let s := s.setNode inum
              { s.node inum with major := toShort major, minor := toShort minor, nlink := 1 }
            match (if type = .dir then mkdots s dp ip else some s) with
            | none => none
            | some s =>
              match dirlink s dp name inum with
              | some (true, s) => some (some ip, iput s dp)
              | _ => none

/-- `filealloc()`: the first file with no references. -/
def filealloc (s : Sys) : Option (Fin NFILE × Sys) :=
  ((List.finRange NFILE).find? fun f => (s.file f).ref == 0).map fun f =>
    (f, s.setFile f { s.file f with ref := 1 })

/-- `fdalloc(f)`: the first free descriptor of process `p`. -/
def fdalloc (s : Sys) (p : Fin NPROC) (f : Fin NFILE) : Option (Fin NOFILE × Sys) :=
  ((List.finRange NOFILE).find? fun fd => ((s.proc p).ofile fd).isNone).map fun fd =>
    (fd, s.setProc p { s.proc p with ofile := Function.update (s.proc p).ofile fd (some f) })

/-- `fileclose(f)`; `none` for `panic("fileclose")`. -/
def fileclose (s : Sys) (f : Fin NFILE) : Option Sys :=
  if (s.file f).ref < 1 then none
  else if 0 < (s.file f).ref - 1 then some (s.setFile f { s.file f with ref := (s.file f).ref - 1 })
  else
    let ff := s.file f
    let s := s.setFile f { ff with ref := 0, type := .none }
    if ff.type = .inode ∨ ff.type = .device then some (iput s ff.ip) else some s

/-- The bits of `omode` (`kernel/fcntl.h`). -/
def O_RDONLY : ℕ := 0x000
def O_WRONLY : ℕ := 0x001
def O_RDWR : ℕ := 0x002
def O_CREATE : ℕ := 0x200
def O_TRUNC : ℕ := 0x400

/-- `sys_open`'s lookup: `create` for `O_CREATE`, else `namei`, refusing to open a directory
for writing. The inode comes back locked. -/
def openInode (s : Sys) (p : Fin NPROC) (path : List Char) (omode : ℕ) :
    Option (Option (Fin NINODE) × Sys) :=
  if omode &&& O_CREATE ≠ 0 then create ninodes s p path .file 0 0
  else
    match namei s p path with
    | none => none
    | some (none, s) => some (none, s)
    | some (some ip, s) =>
      match ilock s ip with
      | none => none
      | some s =>
        if (s.ino ip).type = some .dir ∧ omode ≠ O_RDONLY then some (none, iput s ip)
        else some (some ip, s)

/-- `sys_open(path, omode)`. Truncating a file changes no name, so `O_TRUNC` has no effect
here. -/
def sysOpen (s : Sys) (p : Fin NPROC) (path : List Char) (omode : ℕ) : Option (ℤ × Sys) :=
  match openInode ninodes s p path omode with
  | none => none
  | some (none, s) => some (-1, s)
  | some (some ip, s) =>
    if (s.ino ip).type = some .device ∧ ((s.ino ip).major < 0 ∨ NDEV ≤ (s.ino ip).major) then
      some (-1, iput s ip)
    else
      match filealloc s with
      | none => some (-1, iput s ip)
      | some (f, s) =>
        match fdalloc s p f with
        | none => (fileclose s f).map fun s => (-1, iput s ip)
        | some (fd, s) =>
          let dev := (s.ino ip).type = some .device
          some (fd, s.setFile f { s.file f with
            type := if dev then .device else .inode
            major := if dev then (s.ino ip).major else (s.file f).major
            off := if dev then (s.file f).off else 0
            ip := ip
            readable := omode &&& O_WRONLY = 0
            writable := omode &&& O_WRONLY ≠ 0 || omode &&& O_RDWR ≠ 0 })

/-- `sys_mkdir(path)`. -/
def sysMkdir (s : Sys) (p : Fin NPROC) (path : List Char) : Option (ℤ × Sys) :=
  match create ninodes s p path .dir 0 0 with
  | none => none
  | some (none, s) => some (-1, s)
  | some (some ip, s) => some (0, iput s ip)

/-- `sys_mknod(path, major, minor)`. -/
def sysMknod (s : Sys) (p : Fin NPROC) (path : List Char) (major minor : ℤ) : Option (ℤ × Sys) :=
  match create ninodes s p path .device major minor with
  | none => none
  | some (none, s) => some (-1, s)
  | some (some ip, s) => some (0, iput s ip)

/-- `sys_link(old, new)`; on failure after the link count was raised (`bad`), it is lowered
again. -/
def sysLink (s : Sys) (p : Fin NPROC) (old new : List Char) : Option (ℤ × Sys) :=
  match namei s p old with
  | none => none
  | some (none, s) => some (-1, s)
  | some (some ip, s) =>
    match ilock s ip with
    | none => none
    | some s =>
      if (s.ino ip).type = some .dir then some (-1, iput s ip)
      else
        let inum := (s.itable ip).inum
        let s := s.setNode inum { s.node inum with nlink := (s.node inum).nlink + 1 }
        let bad (s : Sys) : Option (ℤ × Sys) :=
          (ilock s ip).map fun s =>
            (-1, iput (s.setNode inum { s.node inum with nlink := (s.node inum).nlink - 1 }) ip)
        match nameiparent s p new with
        | none => none
        | some (none, s) => bad s
        | some (some (dp, name), s) =>
          match ilock s dp with
          | none => none
          | some s =>
            match dirlink s dp name inum with
            | none => none
            | some (true, s) => some (0, iput (iput s dp) ip)
            | some (false, s) => bad (iput s dp)

/-- `isdirempty(dp)`: no entry in use past `.` and `..`. -/
def isdirempty (n : Node) : Bool := (n.entries.drop 2).all fun e => e.inum == 0

/-- `sys_unlink(path)`: the entry is zeroed; unlinking a directory also drops its `..` link
to the parent. -/
def sysUnlink (s : Sys) (p : Fin NPROC) (path : List Char) : Option (ℤ × Sys) :=
  match nameiparent s p path with
  | none => none
  | some (none, s) => some (-1, s)
  | some (some (dp, name), s) =>
    match ilock s dp with
    | none => none
    | some s =>
      if namecmp name ['.'] ∨ namecmp name ['.', '.'] then some (-1, iput s dp)
      else
        match dirlookup s dp name with
        | none => none
        | some (none, s) => some (-1, iput s dp)
        | some (some (ip, off), s) =>
          match ilock s ip with
          | none => none
          | some s =>
            if (s.ino ip).nlink < 1 then none
            else if (s.ino ip).type = some .dir ∧ isdirempty (s.ino ip) = false then
              some (-1, iput (iput s ip) dp)
            else
              let dinum := (s.itable dp).inum
              let s := s.setNode dinum
                { s.node dinum with entries := (s.node dinum).entries.set off ⟨0, []⟩ }
              let s := if (s.ino ip).type = some .dir then
                  s.setNode dinum { s.node dinum with nlink := (s.node dinum).nlink - 1 }
                else s
              let s := iput s dp
              let inum := (s.itable ip).inum
              some (0, iput (s.setNode inum { s.node inum with nlink := (s.node inum).nlink - 1 }) ip)

/-- `sys_chdir(path)`. -/
def sysChdir (s : Sys) (p : Fin NPROC) (path : List Char) : Option (ℤ × Sys) :=
  match namei s p path with
  | none => none
  | some (none, s) => some (-1, s)
  | some (some ip, s) =>
    match ilock s ip with
    | none => none
    | some s =>
      if (s.ino ip).type ≠ some .dir then some (-1, iput s ip)
      else
        let s := iput s (s.proc p).cwd
        some (0, s.setProc p { s.proc p with cwd := ip })

/-- `sys_close(fd)`. -/
def sysClose (s : Sys) (p : Fin NPROC) (fd : ℕ) : Option (ℤ × Sys) :=
  if h : fd < NOFILE then
    match (s.proc p).ofile ⟨fd, h⟩ with
    | none => some (-1, s)
    | some f =>
      (fileclose (s.setProc p { s.proc p with ofile := Function.update (s.proc p).ofile ⟨fd, h⟩ none })
        f).map fun s => (0, s)
  else some (-1, s)

/-- `exit`'s loop over the descriptors `fds`: close each open one. -/
def closeAll (p : Fin NPROC) : List (Fin NOFILE) → Sys → Option Sys
  | [], s => some s
  | fd :: fds, s =>
    match (s.proc p).ofile fd with
    | none => closeAll p fds s
    | some f =>
      match fileclose s f with
      | none => none
      | some s =>
        closeAll p fds (s.setProc p { s.proc p with ofile := Function.update (s.proc p).ofile fd none })

/-- `exit(status)`: close every file, drop the current directory; `none` for
`panic("init exiting")`, `init` being process `0`. -/
def exit (s : Sys) (p : Fin NPROC) : Option Sys :=
  if p.val = 0 then none
  else
    match closeAll p (List.finRange NOFILE) s with
    | none => none
    | some s =>
      let s := iput s (s.proc p).cwd
      some (s.setProc p { s.proc p with state := .zombie })

/-- `fork()`'s part on files: a new process in the first unused slot shares every open file
and the current directory. `mem` says whether copying the memory succeeds. -/
def fork (s : Sys) (p : Fin NPROC) (mem : Bool) : Option (ℤ × Sys) :=
  match (List.finRange NPROC).find? (fun q => (s.proc q).state == .unused) with
  | none => some (-1, s)
  | some q =>
    if mem then
      let s := (List.finRange NOFILE).foldl (fun s fd =>
        match (s.proc p).ofile fd with
        | none => s
        | some f => s.setFile f { s.file f with ref := (s.file f).ref + 1 }) s
      let s := idup s (s.proc p).cwd
      some (q.val, s.setProc q ⟨.live, (s.proc p).cwd, (s.proc p).ofile⟩)
    else some (-1, s)

/-- The system calls on names. -/
inductive Call
  | open (path : List Char) (omode : ℕ)
  | mkdir (path : List Char)
  | mknod (path : List Char) (major minor : ℤ)
  | link (old new : List Char)
  | unlink (path : List Char)
  | chdir (path : List Char)
  | close (fd : ℕ)
  | exit
  | fork (mem : Bool)

/-- Process `p` makes call `c`; only a live process makes calls. -/
def step (s : Sys) (p : Fin NPROC) : Call → Option (ℤ × Sys)
  | .open path omode => sysOpen ninodes s p path omode
  | .mkdir path => sysMkdir ninodes s p path
  | .mknod path major minor => sysMknod ninodes s p path major minor
  | .link old new => sysLink s p old new
  | .unlink path => sysUnlink s p path
  | .chdir path => sysChdir s p path
  | .close fd => sysClose s p fd
  | .exit => (exit s p).map fun s => (0, s)
  | .fork mem => fork s p mem

/-- Run the calls in order; `none` if one panics or is made by a process that is not live. -/
def run : Sys → List (Fin NPROC × Call) → Option Sys
  | s, [] => some s
  | s, (p, c) :: calls =>
    if (s.proc p).state = .live then (step ninodes s p c).bind fun (_, s) => run s calls
    else none

theorem run_append (s : Sys) (l₁ l₂ : List (Fin NPROC × Call)) :
    run ninodes s (l₁ ++ l₂) = (run ninodes s l₁).bind fun s => run ninodes s l₂ := by
  induction l₁ generalizing s with
  | nil => rfl
  | cons c l₁ ih =>
    obtain ⟨p, c⟩ := c
    simp only [List.cons_append, run]
    split
    · cases step ninodes s p c with
      | none => rfl
      | some r => exact ih r.2
    · rfl

end Calls

/-! ## The file system `mkfs` writes -/

/-- The root directory `mkfs` writes for the given file names: `.`, `..`, one entry per
file, then free slots up to the size rounded past a block boundary. -/
def rootEntries (names : List (List Char)) : List Dirent :=
  let es := ⟨ROOTINO, ['.']⟩ :: ⟨ROOTINO, ['.', '.']⟩ ::
    names.zipIdx.map fun (name, k) => ⟨k + 2, name.take DIRSIZ⟩
  es ++ List.replicate ((DIRENT_SIZE * es.length / BSIZE + 1) * BSIZE / DIRENT_SIZE - es.length)
    ⟨0, []⟩

/-- The system after boot: the inodes `mkfs` writes, and `init` (process `0`) with `/` as its
current directory in entry `0` of the inode table (`userinit`'s `namei("/")`). -/
def boot (names : List (List Char)) : Sys where
  node inum :=
    if inum = ROOTINO then ⟨some .dir, 0, 0, 1, rootEntries names⟩
    else if 2 ≤ inum ∧ inum < names.length + 2 then ⟨some .file, 0, 0, 1, []⟩
    else ⟨none, 0, 0, 0, []⟩
  itable i := if i.val = 0 then ⟨ROOTINO, 1, false⟩ else ⟨0, 0, false⟩
  file _ := ⟨.none, 0, false, false, ⟨0, by decide⟩, 0, 0⟩
  proc p := ⟨if p.val = 0 then .live else .unused, ⟨0, by decide⟩, fun _ => none⟩
  room := true

end Xv6.Names
