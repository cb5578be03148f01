import CipherFS.Core.Confined

/-!
# Sharing the file system

What everybody else can do to a run, said once for all their actions, and the
assertions about a run that they keep: the run's own objects are below one path,
and apart from them the file system is as it would be without the run.
-/

namespace CipherFS

open Prog

variable {α : Type} {S T : Path → Prop} {w w' : World} {V : α → Prop}

/-- What one action of the environment does. -/
structure Interferes (w w' : World) : Prop where
  tree : ∀ p, (w'.fs.tree p = w.fs.tree p ∧ w'.others.tree p = w.others.tree p) ∨
    (w.fs.tree p = none ∧ w.others.tree p.dropLast = some .directory ∧ ∃ node,
      w'.fs.tree p = some node ∧ w'.others.tree p = some node ∧
        (w.reserved = some p → node ≠ .directory → .occupied ∈ w'.disturbances))
  own : ∀ n, w'.fs.inodes (.own n) = w.fs.inodes (.own n)
  foreign : ∀ n, w.fs.inodes (.other n) = w.others.inodes (.other n) →
    w'.fs.inodes (.other n) = w'.others.inodes (.other n)
  cancelled : w.control.cancelled = true → w'.control.cancelled = true
  events : w'.control.events = w.control.events
  issued : w'.nextOwn = w.nextOwn
  chunks : w'.chunks = w.chunks
  memory : w'.guards = w.guards ∧ w'.reserved = w.reserved
  history : ∀ n, w.versions n ⊆ w'.versions n
  current : (∀ n, w.fs.inodes (.other n) ∈ w.versions n) →
    ∀ n, w'.fs.inodes (.other n) ∈ w'.versions n
  failures : w'.failures = w.failures
  disturbances : w.disturbances ⊆ w'.disturbances
  wiped : .wiped ∈ w'.disturbances → .wiped ∈ w.disturbances

theorem Interferes.install {p : Path} {node : FsNode} (h : w.install p node = some w') :
    Interferes w w' := by
  unfold World.install at h
  split at h
  · rename_i hp
    obtain rfl := Option.some.inj h
    refine
      { tree := fun q => ?_, own := fun _ => rfl, foreign := fun _ hn => hn, cancelled := fun hc => hc
        events := rfl, issued := rfl, chunks := rfl, memory := ⟨rfl, rfl⟩
        history := fun _ => List.Subset.refl _, current := fun hn => hn, failures := rfl
        disturbances := ?_, wiped := ?_ }
    · by_cases hq : q = p
      · subst hq
        refine .inr ⟨hp.1, hp.2, node, FileTree.put_self, FileTree.put_self, fun hr hn => ?_⟩
        dsimp only
        rw [if_pos ⟨hr, hn⟩]
        exact List.mem_cons_self
      · exact .inl ⟨FileTree.put_of_ne hq, FileTree.put_of_ne hq⟩
    · dsimp only
      split
      · exact List.subset_cons_self _ _
      · exact List.Subset.refl _
    · intro hw
      dsimp only at hw
      split at hw
      · exact (List.mem_cons.mp hw).resolve_left nofun
      · exact hw
  · cases h

theorem Interferes.store (n : Nat) (inode : Inode) : Interferes w (w.store n inode) where
  tree _ := .inl ⟨rfl, rfl⟩
  own k := by
    have hne : Ino.own k ≠ .other n := Ino.noConfusion
    simp only [World.store, Fs.setInode, Function.update_of_ne hne]
  foreign m hm := by
    simp only [World.store, Fs.setInode]
    by_cases h : m = n
    · subst h
      rw [Function.update_self, Function.update_self]
    · have hne : Ino.other m ≠ .other n := fun heq => h (Ino.other.inj heq)
      rw [Function.update_of_ne hne, Function.update_of_ne hne, hm]
  cancelled h := h
  events := rfl
  issued := rfl
  chunks := rfl
  memory := ⟨rfl, rfl⟩
  history m := by
    show w.versions m ⊆ Function.update w.versions n (inode :: w.versions n) m
    by_cases h : m = n
    · subst h
      rw [Function.update_self]
      exact List.subset_cons_self _ _
    · rw [Function.update_of_ne h]
      exact List.Subset.refl _
  current hn m := by
    simp only [World.store, Fs.setInode]
    by_cases h : m = n
    · subst h
      rw [Function.update_self, Function.update_self]
      exact List.mem_cons_self
    · have hne : Ino.other m ≠ .other n := fun heq => h (Ino.other.inj heq)
      rw [Function.update_of_ne hne, Function.update_of_ne h]
      exact hn m
  failures := rfl
  disturbances := List.Subset.refl _
  wiped h := h

/-- A new file of somebody else gets its content before its name. -/
theorem Interferes.mkfile {p : Path} {inode : Inode}
    (h : ({ w with nextOther := w.nextOther + 1 }.store w.nextOther inode).install p
      (.file (.other w.nextOther)) = some w') : Interferes w w' := by
  have hstore : Interferes w ({ w with nextOther := w.nextOther + 1 }.store w.nextOther inode) :=
    { Interferes.store (w := { w with nextOther := w.nextOther + 1 }) w.nextOther inode with }
  have hinstall := Interferes.install h
  exact
    { hinstall with
      own := fun n => (hinstall.own n).trans (hstore.own n)
      history := fun n => List.Subset.trans (hstore.history n) (hinstall.history n)
      current := fun hn => hinstall.current (hstore.current hn)
      foreign := fun n hn => hinstall.foreign n (hstore.foreign n hn) }

/-- **Every action of the environment.** -/
theorem World.interferes_of_env {a : EnvAction} (h : w.env a = some w') : Interferes w w' := by
  cases a with
  | cancel =>
      obtain rfl := Option.some.inj h
      exact
        { tree := fun _ => .inl ⟨rfl, rfl⟩, own := fun _ => rfl, foreign := fun _ hn => hn
          cancelled := fun _ => rfl, events := rfl, issued := rfl, chunks := rfl
          memory := ⟨rfl, rfl⟩, history := fun _ => List.Subset.refl _, current := fun hn => hn
          failures := rfl
          disturbances := List.Subset.refl _, wiped := fun hw => hw }
  | mkdir p => exact .install h
  | mkfile p inode =>
      rw [World.env] at h
      split at h
      · exact .mkfile h
      · cases h
  | mklink p target => exact .install h
  | mkspecial p => exact .install h
  | modify n inode =>
      rw [World.env] at h
      split at h
      · obtain rfl := Option.some.inj h
        exact .store n inode
      · cases h

/-- What everybody else does between two steps of a run. -/
def World.sharing : Rely World := .closure fun w w' => ∃ a, w.env a = some w'

/-- What every single action keeps, a run may rely on. -/
theorem World.stable_sharing {P : World → Prop} (h : ∀ w w', Interferes w w' → P w → P w') :
    World.sharing.Stable P :=
  Rely.stable_closure fun w w' ⟨_, ha⟩ => h w w' (World.interferes_of_env ha)

end CipherFS
