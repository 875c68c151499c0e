import LocalBase.Lib.Program
import LocalBase.Lib.Tree
import LocalBase.Unpack.Target

/-!
# Unpacking an archive

The entries of an archive are put under a directory one after another. Links
are made as the archive has them, so where a path under the directory leads
depends on the entries before it; an entry is put at its path only when no
directory on the way is a link already.

Writing may fail at any point, and an archive may break off. What a disk says of
a path is what is there. It need not tell all names apart, and it may refuse
paths, and then all that go on from them.
-/

namespace LocalBase.Unpack

open Program Tree

/-! ## The disk -/

abbrev Bytes : Type := List UInt8

abbrev Disk : Type := Tree.Disk Name UInt8

abbrev Real : Type := List Name

structure Os where
  /-- The same for names that a disk does not tell apart. -/
  fold : Name → Name
  maxLinks : Nat
  /-- A path that is not taken: one too long, or with a name that can't be. -/
  refuses : Path → Bool
  refuses_append : ∀ p q, refuses p = true → refuses (p ++ q) = true

/-- The disk, and what was created, truncated, written or made on it. -/
structure World where
  tree : Disk
  touched : List Real

inductive Kind where
  | dir
  | file
  | link
deriving DecidableEq

def kind : Node Name UInt8 → Kind
  | .dir => .dir
  | .file _ => .file
  | .link _ _ => .link

inductive Resolved where
  | at (p : Real)
  | absent
  | failed

inductive Op where
  | lstat (p : Path)
  | stat (p : Path)
  | evalSymlinks (p : Path)
  | mkdir (p : Path)
  /-- Opens for writing, creates or truncates, and follows no link. -/
  | create (p : Path)
  | write (r : Real) (bs : Bytes)
  | close
  | symlink (text : Name) (p : Path)

@[reducible] def Answer : Op → Type
  | .lstat _ | .stat _ => Option Kind
  | .evalSymlinks _ => Resolved
  | .mkdir _ | .write _ _ | .close | .symlink _ _ => Bool
  | .create _ => Option Real

/-- Whether an operation that writes works, and how much it wrote if not. -/
inductive Luck where
  | good
  | bad (k : Nat)

/-- Where a path leads but for a link at its end. -/
def Os.locate (os : Os) (t : Disk) (p : Path) : Option Real :=
  if os.refuses p then none
  else
    match (p.map os.fold).getLast? with
    | none => some []
    | some x => (place t os.maxLinks (p.map os.fold).dropLast x).toOption

def Os.resolve (os : Os) (t : Disk) (p : Path) : Resolved :=
  if os.refuses p then .failed
  else
    match walk t os.maxLinks [] ((p.map os.fold).map .down) with
    | .ok (r, _) => .at r
    | .error .absent => .absent
    | .error _ => .failed

def Os.linkStep (os : Os) (c : Name) : Step Name :=
  if c = [] ∨ c = dot then .here else if c = dotdot then .up else .down (os.fold c)

def Os.linkNode (os : Os) (text : Name) : Node Name UInt8 :=
  .link (isAbs text) ((text.splitOn '/').map os.linkStep)

def World.put (w : World) (r : Real) (node : Node Name UInt8) : World :=
  ⟨Tree.put w.tree r node, w.touched ++ [r]⟩

def World.mkdir (w : World) (r : Real) : Bool × World :=
  if (w.tree r).isNone then (true, w.put r .dir) else (false, w)

def World.create (w : World) (r : Real) : Option Real × World :=
  match w.tree r with
  | none | some (.file _) => (some r, w.put r (.file []))
  | _ => (none, w)

def World.write (w : World) (r : Real) (bs : Bytes) : World :=
  match w.tree r with
  | some (.file old) => w.put r (.file (old ++ bs))
  | _ => w

def World.symlink (w : World) (node : Node Name UInt8) (r : Real) : Bool × World :=
  if (w.tree r).isNone then (true, w.put r node) else (false, w)

def act (os : Os) : Sem Answer World Luck := fun w o luck =>
  match o, luck with
  | .lstat p, _ => some (((os.locate w.tree p).bind w.tree).map kind, w)
  | .stat p, _ =>
    match os.resolve w.tree p with
    | .at r => some ((w.tree r).map kind, w)
    | _ => some (none, w)
  | .evalSymlinks p, _ => some (os.resolve w.tree p, w)
  | .mkdir p, .good => some (((os.locate w.tree p).map w.mkdir).getD (false, w))
  | .mkdir _, .bad _ => some (false, w)
  | .create p, .good => some (((os.locate w.tree p).map w.create).getD (none, w))
  | .create _, .bad _ => some (none, w)
  | .write r bs, .good => some (true, w.write r bs)
  | .write r bs, .bad k => some (false, w.write r (bs.take k))
  | .close, .good => some (true, w)
  | .close, .bad _ => some (false, w)
  | .symlink text p, .good =>
    if text = [] then some (false, w)
    else some (((os.locate w.tree p).map (w.symlink (os.linkNode text))).getD (false, w))
  | .symlink _ _, .bad _ => some (false, w)

/-! ## The program -/

abbrev Steps : Type → Type := Prog Answer

def lstat (p : Path) : Steps (Option Kind) := perform (Op.lstat p)
def stat (p : Path) : Steps (Option Kind) := perform (Op.stat p)
def evalSymlinks (p : Path) : Steps Resolved := perform (Op.evalSymlinks p)
def mkdir (p : Path) : Steps Bool := perform (Op.mkdir p)
def create (p : Path) : Steps (Option Real) := perform (Op.create p)
def write (r : Real) (bs : Bytes) : Steps Bool := perform (Op.write r bs)
def close : Steps Bool := perform Op.close
def symlink (text : Name) (p : Path) : Steps Bool := perform (Op.symlink text p)

inductive EntryKind where
  | dir
  | reg
  | symlink
  | other
deriving DecidableEq

/-- An entry, and what reading it gives: whether it opens at all, pieces of its
content, and whether it breaks off after them. -/
structure Entry where
  name : Name
  kind : EntryKind
  link : Name
  opens : Bool
  chunks : List Bytes
  broken : Bool

structure Archive where
  opens : Bool
  entries : List Entry
  broken : Bool

inductive Failure where
  | io
  | throughLink (name : Name)
  | outside (name : Name)
  | isLink (name : Name)
  | notFollowed (name : Name)
deriving DecidableEq

abbrev Result : Type := Except Failure Unit

/-- Makes one directory, after its parents. -/
def makeDir (p : Path) (parents : Steps Bool) : Steps Bool :=
  stat p >>= fun
    | some .dir => .done true
    | some _ => .done false
    | none => parents >>= fun
        | false => .done false
        | true => mkdir p >>= fun
            | true => .done true
            | false => lstat p >>= fun k => .done (k = some .dir)

/-- `os.MkdirAll`, of a path from its end. -/
def mkdirUp : List Name → Steps Bool
  | [] => makeDir [] (.done true)
  | x :: up => makeDir (x :: up).reverse (mkdirUp up)

def mkdirAll (p : Path) : Steps Bool := mkdirUp p.reverse

def copy (r : Real) : List Bytes → Steps Bool
  | [] => .done true
  | bs :: rest => write r bs >>= fun
      | true => copy r rest
      | false => .done false

def writeEntry (target : Path) (e : Entry) : Steps Bool :=
  mkdirAll target.dropLast >>= fun
    | false => .done false
    | true => create target >>= fun
        | none => .done false
        | some r => copy r e.chunks >>= fun copied =>
          close >>= fun closed => .done (copied && !e.broken && closed)

/-- `filepath.Rel` of clean absolute paths. -/
def rel : Path → Path → List Name
  | b :: base, x :: p => if b = x then rel base p else (b :: base).map (fun _ => dotdot) ++ x :: p
  | base, p => base.map (fun _ => dotdot) ++ p

def throughLink : Path → List Name → Steps Bool
  | _, [] => .done false
  | p, part :: parts => lstat (join p part) >>= fun
      | none => .done false
      | some .link => .done true
      | some _ => throughLink (join p part) parts

/-- Says whether a path below the directory passes through a link already
made. -/
def goesThroughLink (dir target : Path) : Steps Bool :=
  let parts := rel dir target.dropLast
  throughLink dir (if parts = [] then [dot] else parts)

/-- Whether the text of a path begins with that of a directory and a slash. -/
def inside (dir p : Path) : Bool := dir.isPrefixOf p && dir ≠ p

def base (p : Path) : Name := p.getLast?.getD []

def followLinks (pkg : Real) : List Path → Steps Result
  | [] => .done (.ok ())
  | link :: links => evalSymlinks link >>= fun
      | .absent => followLinks pkg links
      | .failed => .done (.error (.notFollowed (base link)))
      | .at r =>
        if inside pkg r then followLinks pkg links
        else .done (.error (.outside (base link)))

def linksStayInside (dir : Path) (links : List Path) : Steps Result :=
  evalSymlinks dir >>= fun
    | .at pkg => followLinks pkg links
    | _ => .done (.error .io)

def makeLink (e : Entry) (target : Path) : Steps Bool :=
  mkdirAll target.dropLast >>= fun _ => symlink e.link target

/-- The entries of a tar archive, after those whose links these are: the links
of all of them. -/
def tarEntries (dir : Path) (strip : Nat) (broken : Bool) :
    List Entry → List Path → Steps (Except Failure (List Path))
  | [], links => .done (if broken then .error .io else .ok links)
  | e :: entries, links =>
    match safeTarget dir e.name strip with
    | none => tarEntries dir strip broken entries links
    | some target => goesThroughLink dir target >>= fun
        | true => .done (.error (.throughLink e.name))
        | false =>
          match e.kind with
          | .dir => mkdirAll target >>= fun _ => tarEntries dir strip broken entries links
          | .reg => writeEntry target e >>= fun
              | true => tarEntries dir strip broken entries links
              | false => .done (.error .io)
          | .symlink =>
            if !inside dir (join target.dropLast e.link) || isAbs e.link then
              .done (.error (.outside e.name))
            else makeLink e target >>= fun
              | true => tarEntries dir strip broken entries (links ++ [target])
              | false => .done (.error .io)
          | .other => tarEntries dir strip broken entries links

def extractTarGz (a : Archive) (dir : Path) (strip : Nat) : Steps Result :=
  if a.opens then
    tarEntries dir strip a.broken a.entries [] >>= fun
      | .error e => .done (.error e)
      | .ok links => linksStayInside dir links
  else .done (.error .io)

def zipEntries (dir : Path) (strip : Nat) : List Entry → Steps Result
  | [] => .done (.ok ())
  | e :: entries =>
    match safeTarget dir e.name strip with
    | none => zipEntries dir strip entries
    | some target =>
      match e.kind with
      | .dir => mkdirAll target >>= fun _ => zipEntries dir strip entries
      | .symlink => .done (.error (.isLink e.name))
      | _ =>
        if e.opens then writeEntry target e >>= fun
          | true => zipEntries dir strip entries
          | false => .done (.error .io)
        else .done (.error .io)

def extractZip (a : Archive) (dir : Path) (strip : Nat) : Steps Result :=
  if a.opens then zipEntries dir strip a.entries else .done (.error .io)

end LocalBase.Unpack
