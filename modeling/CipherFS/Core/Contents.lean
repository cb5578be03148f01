import CipherFS.Core.Interference

/-!
# The contents of files

Anybody may change a file of his own at any time, but a new content comes with a
length and a time that the file has not had before. So a file that shows the
print of one of its contents has that content, and once it has shown another it
never shows the first one again. Names only come, with files that have numbers
of their own.
-/

namespace CipherFS

variable {m : Nat} {v : Inode} {w w' : World} {a : EnvAction}

/-! ## The contents of a file -/

/-- What `stat` tells of a content. -/
def Inode.print (v : Inode) : Nat × Nat := (v.content.length, v.modified)

theorem World.install_contents {p : Path} {node : FsNode} (h : w.install p node = some w') :
    w'.fs.inodes = w.fs.inodes ∧ w'.versions = w.versions ∧ w'.nextOther = w.nextOther := by
  unfold World.install at h
  split at h
  · obtain rfl := Option.some.inj h
    exact ⟨rfl, rfl, rfl⟩
  · cases h

theorem World.store_contents (w : World) (n : Nat) (inode : Inode) (m : Nat) :
    ((w.store n inode).fs.inodes (.other m) = w.fs.inodes (.other m) ∧
      (w.store n inode).versions m = w.versions m) ∨
    m = n ∧ (w.store n inode).fs.inodes (.other m) = inode ∧
      (w.store n inode).versions m = inode :: w.versions m := by
  simp only [World.store, Fs.setInode]
  by_cases h : m = n
  · subst h
    rw [Function.update_self, Function.update_self]
    exact .inr ⟨rfl, rfl, rfl⟩
  · have hne : Ino.other m ≠ .other n := fun heq => h (Ino.other.inj heq)
    rw [Function.update_of_ne hne, Function.update_of_ne h]
    exact .inl ⟨rfl, rfl⟩

/-- **What somebody else can do to a file**: nothing, or give it a content with a
print of its own. -/
theorem World.env_contents (h : w.env a = some w') (m : Nat) :
    (w'.fs.inodes (.other m) = w.fs.inodes (.other m) ∧ w'.versions m = w.versions m) ∨
    w'.versions m = w'.fs.inodes (.other m) :: w.versions m ∧
      (w'.fs.inodes (.other m)).content.length < 2 ^ 64 ∧
      (m < w.nextOther → ∀ v ∈ w.versions m, v.print ≠ (w'.fs.inodes (.other m)).print) := by
  have hinstall : ∀ {p node}, w.install p node = some w' →
      w'.fs.inodes (.other m) = w.fs.inodes (.other m) ∧ w'.versions m = w.versions m := by
    intro p node hp
    obtain ⟨hinodes, hversions, -⟩ := World.install_contents hp
    rw [hinodes, hversions]
    exact ⟨rfl, rfl⟩
  cases a with
  | cancel =>
      obtain rfl := Option.some.inj h
      exact .inl ⟨rfl, rfl⟩
  | mkdir p => exact .inl (hinstall h)
  | mklink p target => exact .inl (hinstall h)
  | mkspecial p => exact .inl (hinstall h)
  | mkfile p inode =>
      rw [World.env] at h
      split at h
      · rename_i hlen
        obtain ⟨hinodes, hversions, -⟩ := World.install_contents h
        rw [hinodes, hversions]
        rcases World.store_contents { w with nextOther := w.nextOther + 1 } w.nextOther inode m with
          hsame | ⟨rfl, hinode, hversion⟩
        · exact .inl hsame
        · rw [hinode, hversion]
          exact .inr ⟨rfl, hlen, fun hlt => absurd hlt (Nat.lt_irrefl _)⟩
      · cases h
  | modify n inode =>
      rw [World.env] at h
      split at h
      · rename_i hnew
        obtain rfl := Option.some.inj h
        rcases World.store_contents w n inode m with hsame | ⟨rfl, hinode, hversion⟩
        · exact .inl hsame
        · rw [hinode, hversion]
          exact .inr ⟨rfl, hnew.1, fun _ => hnew.2⟩
      · cases h

theorem World.env_next (h : w.env a = some w') : w.nextOther ≤ w'.nextOther := by
  cases a with
  | cancel =>
      obtain rfl := Option.some.inj h
      exact Nat.le_refl _
  | mkdir p => exact Nat.le_of_eq (World.install_contents h).2.2.symm
  | mklink p target => exact Nat.le_of_eq (World.install_contents h).2.2.symm
  | mkspecial p => exact Nat.le_of_eq (World.install_contents h).2.2.symm
  | mkfile p inode =>
      rw [World.env] at h
      split at h
      · rw [(World.install_contents h).2.2]
        exact Nat.le_succ _
      · cases h
  | modify n inode =>
      rw [World.env] at h
      split at h
      · obtain rfl := Option.some.inj h
        exact Nat.le_refl _
      · cases h

/-- A step of a run that leaves the files of everybody else. -/
structure Leaves (w w' : World) : Prop where
  inodes : ∀ m, w'.fs.inodes (.other m) = w.fs.inodes (.other m)
  versions : w'.versions = w.versions
  next : w'.nextOther = w.nextOther
  others : w'.others = w.others

/-- The contents that are on record are all that files have had. -/
structure Recorded (w : World) : Prop where
  current : ∀ m, w.fs.inodes (.other m) ∈ w.versions m
  length : ∀ m, ∀ v ∈ w.versions m, v.content.length < 2 ^ 64

namespace Recorded

theorem env (hw : Recorded w) (h : w.env a = some w') : Recorded w' where
  current m := by
    rcases World.env_contents h m with ⟨hinode, hversions⟩ | ⟨hversions, -⟩
    · rw [hinode, hversions]
      exact hw.current m
    · rw [hversions]
      exact List.mem_cons_self
  length m v hv := by
    rcases World.env_contents h m with ⟨-, hversions⟩ | ⟨hversions, hlen, -⟩
    · rw [hversions] at hv
      exact hw.length m v hv
    · rw [hversions] at hv
      rcases List.mem_cons.mp hv with rfl | hv
      · exact hlen
      · exact hw.length m v hv

theorem own (hw : Recorded w) (h : Leaves w w') : Recorded w' where
  current m := by
    rw [h.inodes, h.versions]
    exact hw.current m
  length m v hv := by
    rw [h.versions] at hv
    exact hw.length m v hv

end Recorded

/-- A content that a file has had: it has it still, or shows another print. -/
structure Seen (m : Nat) (v : Inode) (w : World) : Prop where
  issued : m < w.nextOther
  version : v ∈ w.versions m
  once : w.fs.inodes (.other m) = v ∨ (w.fs.inodes (.other m)).print ≠ v.print

/-- A content that a file has had and will not have again. -/
structure Stale (m : Nat) (v : Inode) (w : World) : Prop where
  issued : m < w.nextOther
  version : v ∈ w.versions m
  print : (w.fs.inodes (.other m)).print ≠ v.print

theorem World.mem_versions_env (h : w.env a = some w') (hv : v ∈ w.versions m) :
    v ∈ w'.versions m := (World.interferes_of_env h).history m hv

theorem Stale.env (hw : Stale m v w) (h : w.env a = some w') : Stale m v w' where
  issued := Nat.lt_of_lt_of_le hw.issued (World.env_next h)
  version := World.mem_versions_env h hw.version
  print := by
    rcases World.env_contents h m with ⟨hinode, -⟩ | ⟨-, -, hnew⟩
    · rw [hinode]
      exact hw.print
    · exact (hnew hw.issued v hw.version).symm

theorem Seen.env (hw : Seen m v w) (h : w.env a = some w') : Seen m v w' where
  issued := Nat.lt_of_lt_of_le hw.issued (World.env_next h)
  version := World.mem_versions_env h hw.version
  once := by
    rcases World.env_contents h m with ⟨hinode, -⟩ | ⟨-, -, hnew⟩
    · rw [hinode]
      exact hw.once
    · exact .inr (hnew hw.issued v hw.version).symm

theorem Seen.own (hw : Seen m v w) (h : Leaves w w') : Seen m v w' where
  issued := by
    rw [h.next]
    exact hw.issued
  version := by
    rw [h.versions]
    exact hw.version
  once := by
    rw [h.inodes]
    exact hw.once

theorem Stale.own (hw : Stale m v w) (h : Leaves w w') : Stale m v w' where
  issued := by
    rw [h.next]
    exact hw.issued
  version := by
    rw [h.versions]
    exact hw.version
  print := by
    rw [h.inodes]
    exact hw.print

theorem Seen.stale (hw : Seen m v w) (hne : w.fs.inodes (.other m) ≠ v) : Stale m v w :=
  ⟨hw.issued, hw.version, hw.once.resolve_left hne⟩

/-! ## Names -/

theorem World.install_tree {p q : Path} {node : FsNode} (h : w.install p node = some w') :
    w'.fs.tree q = w.fs.tree q ∨ w'.fs.tree q = some node := by
  unfold World.install at h
  split at h
  · obtain rfl := Option.some.inj h
    by_cases hq : q = p
    · subst hq
      exact .inr FileTree.put_self
    · exact .inl (FileTree.put_of_ne hq)
  · cases h

/-- A new file of somebody else has a number of its own. -/
theorem World.env_file {q : Path} {ino : Ino} (h : w.env a = some w')
    (hq : w'.fs.tree q = some (.file ino)) :
    w.fs.tree q = some (.file ino) ∨ ∃ m < w'.nextOther, ino = .other m := by
  have hnode : ∀ {p node}, w.install p node = some w' → node ≠ .file ino →
      w.fs.tree q = some (.file ino) := by
    intro p node hp hne
    rcases World.install_tree (q := q) hp with hsame | hnew
    · rw [← hsame]
      exact hq
    · rw [hnew] at hq
      exact absurd (Option.some.inj hq) hne
  cases a with
  | cancel =>
      obtain rfl := Option.some.inj h
      exact .inl hq
  | mkdir p => exact .inl (hnode h FsNode.noConfusion)
  | mklink p target => exact .inl (hnode h FsNode.noConfusion)
  | mkspecial p => exact .inl (hnode h FsNode.noConfusion)
  | mkfile p inode =>
      rw [World.env] at h
      split at h
      · rcases World.install_tree (q := q) h with hsame | hnew
        · rw [hsame] at hq
          exact .inl hq
        · rw [hnew] at hq
          obtain rfl := FsNode.file.inj (Option.some.inj hq)
          rw [(World.install_contents h).2.2]
          exact .inr ⟨w.nextOther, Nat.lt_succ_self _, rfl⟩
      · cases h
  | modify n inode =>
      rw [World.env] at h
      split at h
      · obtain rfl := Option.some.inj h
        exact .inl hq
      · cases h

theorem World.stable_env {P : World → Prop} (h : ∀ w a w', w.env a = some w' → P w → P w') :
    World.sharing.Stable P := by
  apply Rely.stable_closure
  rintro w w' ⟨a, ha⟩ hw
  exact h w a w' ha hw

theorem World.env_keeps {p : Path} {node : FsNode} (h : w.env a = some w')
    (hp : w.fs.tree p = some node) : w'.fs.tree p = some node := by
  rcases (World.interferes_of_env h).tree p with ⟨hsame, -⟩ | ⟨hnone, -⟩
  · rw [hsame]
    exact hp
  · rw [hnone] at hp
    cases hp

end CipherFS
