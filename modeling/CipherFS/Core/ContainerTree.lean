import CipherFS.Core.Extract.Order
import CipherFS.Core.V2.StoredChunks

/-!
# The tree in a container

A container is a tree: directories and files, each file with a content. So is
what a file system has below some path. This is what packing, extraction and
reading are about; entries, chunks and inodes are how the trees are kept.
-/

namespace CipherFS

open V2 Extract

variable {Key : Type}

/-- What is at a path, with all that can be read there. -/
inductive Object where
  | directory
  | file (content : Bytes)

/-- What an entry of a container stands for. -/
def V2.OpenedContainer.Shows (C : Crypto Key (ByteArr 48)) (o : OpenedContainer (ByteArr 48))
    (e : Entry) : Object → Prop
  | .directory => e.kind = .directory
  | .file content => e.kind = .file ∧ fileContent C o e = .ok content

/-- What a container has at a path. -/
def V2.OpenedContainer.Has (C : Crypto Key (ByteArr 48)) (o : OpenedContainer (ByteArr 48))
    (p : Path) (x : Object) : Prop :=
  ∃ e ∈ o.index.entries.values, entryPath o.index e = p ∧ o.Shows C e x

/-- What a file system has at a path. -/
def Fs.Has (fs : Fs) (p : Path) : Object → Prop
  | .directory => fs.tree p = some .directory
  | .file content => ∃ ino, fs.tree p = some (.file ino) ∧ (fs.inodes ino).content = content

/-- A path of a file system has one object at most. -/
theorem Fs.Has.unique {fs : Fs} {p : Path} {x y : Object} (hx : fs.Has p x) (hy : fs.Has p y) :
    x = y := by
  cases x with
  | directory =>
      cases y with
      | directory => rfl
      | file b =>
          obtain ⟨ino, hino, -⟩ := hy
          have hnode := Option.some.inj (hx.symm.trans hino)
          cases hnode
  | file b =>
      obtain ⟨ino, hino, rfl⟩ := hx
      cases y with
      | directory =>
          have hnode := Option.some.inj (hy.symm.trans hino)
          cases hnode
      | file b' =>
          obtain ⟨ino', hino', rfl⟩ := hy
          obtain rfl := FsNode.file.inj (Option.some.inj (hino.symm.trans hino'))
          rfl

/-- A path of a container has one object at most. -/
theorem V2.OpenedContainer.Has.unique {C : Crypto Key (ByteArr 48)}
    {o : OpenedContainer (ByteArr 48)} {p : Path} {x y : Object} (hv : Extractable o.index)
    (hx : o.Has C p x) (hy : o.Has C p y) : x = y := by
  obtain ⟨e, he, hpath, hx⟩ := hx
  obtain ⟨e', he', hpath', hy⟩ := hy
  obtain rfl := hv.injective e he e' he' (hpath.trans hpath'.symm)
  cases x with
  | directory =>
      cases y with
      | directory => rfl
      | file b =>
          have hkind := hx.symm.trans hy.1
          cases hkind
  | file b =>
      cases y with
      | directory =>
          have hkind := hy.symm.trans hx.1
          cases hkind
      | file b' => rw [Except.ok.inj (hx.2.symm.trans hy.2)]

end CipherFS
