import AcCore.Gov.Engine.DiffCodec
import AcCore.Gov.Engine.Outsiders
import Mathlib.Data.UInt

/-!
# Patches

`syncd` collects the hashes of the blocks that are missing, from the head of the
chain back to its tail, and `patch_db` imports their files from the back of this
list to its front. A file can have any contents: it is read as a diff, compared
with its name, and imported when it comes next in the chain. This file says what
has been imported when the loop ends.
-/

namespace AcCore.Gov.Engine

open Lib

/-- `blocksdir`: the contents of the files by their names. -/
abbrev BlocksDir := Table Text Text

/-- A block to import, with the random draws of its import. -/
structure Patch where
  hash : Ripemd160
  picks : List Ripemd160
  drawn : ℕ

/-- The file with the hash of the last block that was imported. -/
def headFile : Text := "head".toList

/-- What `set_last_block_imported_` writes to the disk. -/
def BlocksDir.writeHead (dir : BlocksDir) (h : Ripemd160) : BlocksDir :=
  dir.insert headFile (h.toB58 ++ ['\n'])

variable {PubKey : Type} (σ : Setting PubKey) (debug : Bool)

namespace Daemon

/-- The loop of `patch_db`, over the reversed list: the node and the directory
after it, and whether it went through. Files that are not blocks are removed.
`none` when reading a file has no defined result, or the draws do not fit. -/
def patchLoop : Daemon → BlocksDir → List Patch → Option (Daemon × BlocksDir × Bool)
  | s, dir, [] => some (s, dir, true)
  | s, dir, p :: ps =>
    let corrupt := some (s, dir.erase p.hash.toB58, false)
    match dir.lookup p.hash.toB58 with
    | none => corrupt
    | some text =>
      (Diff.fromStream debug (some text)).bind fun
        | none => corrupt
        | some b =>
          if b.hash σ.ripemd σ.fmt ≠ p.hash then corrupt
          else
            (s.importDiff σ b p.picks p.drawn).bind fun r =>
              if r.2 then patchLoop r.1 (dir.writeHead r.1.lastBlockImported) ps
              else some (r.1, dir, false)

/-- `patch_db`, with the update of the tail of `syncd`. -/
def patchDb (s : Daemon) (dir : BlocksDir) (patches : List Patch) :
    Option (Daemon × BlocksDir × Bool) :=
  (s.patchLoop σ debug dir patches.reverse).map fun
    | (s, dir, true) => ({ s with tail := s.lastBlockImported }, dir, true)
    | (s, dir, false) => (s, dir, false)

/-- The import of a block that is next in the chain. -/
def importPatch (s : Daemon) (b : Diff × Patch) : Option Daemon :=
  (s.importDiff σ b.1 b.2.picks b.2.drawn).bind fun r => if r.2 then some r.1 else none

end Daemon

/-! ## What has been imported -/

/-- The file of a hash holds a diff with this hash. -/
def BlocksDir.Holds (dir : BlocksDir) (h : Ripemd160) (b : Diff) : Prop :=
  b.hash σ.ripemd σ.fmt = h ∧
    ∃ text, dir.lookup h.toB58 = some text ∧ Diff.fromStream debug (some text) = some (some b)

/-- Each block names the hash of the one before it; the first one is named. -/
def LinkedFrom : Ripemd160 → List Diff → Prop
  | _, [] => True
  | prev, b :: bs => b.prev = prev ∧ LinkedFrom (b.hash σ.ripemd σ.fmt) bs

/-- The files of the patches are blocks that are linked to the last block of a
node, and importing these one after the other leads to the node `t`. -/
structure Applied (dir : BlocksDir) (s : Daemon) (patches : List Patch) (bs : List Diff)
    (t : Daemon) : Prop where
  held : List.Forall₂ (fun p b => dir.Holds σ debug p.hash b) patches bs
  linked : LinkedFrom σ s.lastBlockImported bs
  imported : run (Daemon.importPatch σ) s (bs.zip patches) = some t
  last : t.lastBlockImported = (patches.getLast?.map Patch.hash).getD s.lastBlockImported

variable {σ debug}

/-- No block has the name of the file of the head. -/
theorem toB58_ne_headFile (h : Ripemd160) : h.toB58 ≠ headFile := by
  intro heq
  have hhash : Ripemd160.fromB58 headFile = h := by
    rw [← heq, Ripemd160.fromB58_toB58]
  have hother : (Ripemd160.fromB58 headFile).toB58 ≠ headFile := by decide +kernel
  rw [hhash] at hother
  exact hother heq

/-- Writing the head leaves the blocks as they are. -/
theorem BlocksDir.holds_writeHead {dir : BlocksDir} {last h : Ripemd160} {b : Diff} :
    (dir.writeHead last).Holds σ debug h b ↔ dir.Holds σ debug h b := by
  unfold Holds writeHead
  rw [Finmap.lookup_insert_of_ne _ (toB58_ne_headFile h)]

/-- A block that is imported is the next one, and is then the last. -/
theorem Daemon.importDiff_eq_some {s t : Daemon} {b : Diff} {picks : List Ripemd160} {drawn : ℕ}
    {imported : Bool} (h : s.importDiff σ b picks drawn = some (t, imported)) :
    (imported = false ∧ t = s) ∨
      (imported = true ∧ b.prev = s.lastBlockImported ∧
        t.lastBlockImported = b.hash σ.ripemd σ.fmt) := by
  unfold Daemon.importDiff at h
  split_ifs at h with hprev
  · cases h
    exact Or.inl ⟨rfl, rfl⟩
  · obtain ⟨auth, -, himport⟩ := Option.map_eq_some_iff.mp h
    cases himport
    exact Or.inr ⟨rfl, not_not.mp hprev, rfl⟩

/-- One block more at the beginning. -/
theorem Applied.cons {dir : BlocksDir} {s u t : Daemon} {p : Patch} {b : Diff}
    {ps : List Patch} {bs : List Diff} (hholds : dir.Holds σ debug p.hash b)
    (himport : s.importDiff σ b p.picks p.drawn = some (u, true))
    (happlied : Applied σ debug dir u ps bs t) : Applied σ debug dir s (p :: ps) (b :: bs) t := by
  obtain ⟨hfalse, -⟩ | ⟨-, hprev, hlast⟩ := Daemon.importDiff_eq_some himport
  · cases hfalse
  · have hstep : s.importPatch σ (b, p) = some u := by
      rw [Daemon.importPatch, himport]
      rfl
    have hlinked := happlied.linked
    rw [hlast] at hlinked
    refine ⟨.cons hholds happlied.held, ⟨hprev, hlinked⟩,
      run_cons_eq_some.mpr ⟨u, hstep, happlied.imported⟩, ?_⟩
    rw [happlied.last, hlast, hholds.1]
    cases ps with
    | nil => rfl
    | cons q qs =>
      rw [List.getLast?_cons_cons, List.getLast?_eq_some_getLast (List.cons_ne_nil q qs)]
      rfl

namespace Daemon

/-- The loop imports the first of its patches, all of them when it goes through. -/
theorem applied_of_patchLoop {s t : Daemon} {dir dir' : BlocksDir} {ps : List Patch} {ok : Bool}
    (h : s.patchLoop σ debug dir ps = some (t, dir', ok)) :
    ∃ done rest bs, ps = done ++ rest ∧ (ok = true ↔ rest = []) ∧
      Applied σ debug dir s done bs t := by
  induction ps generalizing s dir with
  | nil =>
    cases h
    exact ⟨[], [], [], rfl, by simp, .nil, trivial, rfl, rfl⟩
  | cons p ps ih =>
    -- Each of the four exits leaves the node as it was before the patch.
    have hexit : ∀ {t : Daemon} {ok : Bool}, t = s → ok = false → ∃ done rest bs,
        p :: ps = done ++ rest ∧ (ok = true ↔ rest = []) ∧ Applied σ debug dir s done bs t := by
      rintro _ _ rfl rfl
      exact ⟨[], p :: ps, [], rfl, by simp, .nil, trivial, rfl, rfl⟩
    unfold patchLoop at h
    cases hfile : dir.lookup p.hash.toB58 with
    | none =>
      rw [hfile] at h
      cases h
      exact hexit rfl rfl
    | some text =>
      simp only [hfile] at h
      obtain ⟨read, hread, h⟩ := Option.bind_eq_some_iff.mp h
      cases read with
      | none =>
        cases h
        exact hexit rfl rfl
      | some b =>
        dsimp only at h
        split_ifs at h with hhash
        · cases h
          exact hexit rfl rfl
        · obtain ⟨⟨u, imported⟩, himport, h⟩ := Option.bind_eq_some_iff.mp h
          cases imported with
          | false =>
            obtain ⟨-, hsame⟩ | ⟨htrue, -⟩ := importDiff_eq_some himport
            · cases h
              exact hexit hsame rfl
            · cases htrue
          | true =>
            obtain ⟨done, rest, bs, rfl, hok, happlied⟩ := ih h
            have hheld := happlied.held
            simp only [BlocksDir.holds_writeHead] at hheld
            exact ⟨p :: done, rest, b :: bs, rfl, hok,
              .cons ⟨not_not.mp hhash, text, hfile, hread⟩ himport
                ⟨hheld, happlied.linked, happlied.imported, happlied.last⟩⟩

/-- **Patches.** When `patch_db` goes through, every listed file held the diff
of its name, these are linked to the last block that was imported before, all
have been imported from the back of the list to its front, and the front is the
last one. When it does not, this is so of a proper suffix of the list, and
nothing else has happened to the node. -/
theorem patchDb_applies {s t : Daemon} {dir dir' : BlocksDir} {patches : List Patch} {ok : Bool}
    (hne : patches ≠ []) (h : s.patchDb σ debug dir patches = some (t, dir', ok)) :
    (ok = true → ∃ u bs, Applied σ debug dir s patches.reverse bs u ∧
        u.lastBlockImported = (patches.head hne).hash ∧
        t = { u with tail := (patches.head hne).hash }) ∧
      (ok = false → ∃ front back bs, patches = front ++ back ∧ front ≠ [] ∧
        Applied σ debug dir s back.reverse bs t ∧
        t.lastBlockImported = (back.head?.map Patch.hash).getD s.lastBlockImported) := by
  obtain ⟨⟨u, dir'', through⟩, hloop, hend⟩ := Option.map_eq_some_iff.mp h
  obtain ⟨done, rest, bs, hsplit, hok, happlied⟩ := applied_of_patchLoop hloop
  have hpatches : patches = rest.reverse ++ done.reverse := by
    rw [← List.reverse_append, ← hsplit, List.reverse_reverse]
  have hlast := happlied.last
  cases through with
  | true =>
    cases hend
    obtain rfl := hok.mp rfl
    rw [List.append_nil] at hsplit
    subst hsplit
    rw [List.getLast?_reverse, List.head?_eq_some_head hne] at hlast
    refine ⟨fun _ => ⟨u, bs, happlied, hlast, ?_⟩, fun hfalse => (by cases hfalse)⟩
    rw [← show u.lastBlockImported = (patches.head hne).hash from hlast]
  | false =>
    cases hend
    have hrest : rest ≠ [] := fun hnil => Bool.false_ne_true (hok.mpr hnil)
    refine ⟨fun htrue => (by cases htrue), fun _ => ⟨rest.reverse, done.reverse, bs, hpatches,
      mt List.reverse_eq_nil_iff.mp hrest, ?_, ?_⟩⟩
    · rwa [List.reverse_reverse]
    · rw [List.head?_reverse]
      exact hlast

/-! ## Two blocks on disk -/

/-- A hash that adds the bytes up. -/
def byteSum (bytes : List UInt8) : Ripemd160 := Ripemd160.set (bytes.map UInt8.toUInt32).sum

/-- A node that hashes by adding up. -/
def summingNode : Setting Bool := { nodeOfL with ripemd := byteSum }

/-- A block without deltas and contributors. -/
def emptyBlock (prev : Ripemd160) : Diff := { Diff.create with prev := prev }

/-- The patch of a block. -/
def patchOf (b : Diff) : Patch := ⟨b.hash byteSum noDigits, [], 0⟩

/-- The first two blocks of a chain. -/
def firstBlock : Diff := emptyBlock Ripemd160.zero

/-- The block that follows the first one. -/
def secondBlock : Diff := emptyBlock (patchOf firstBlock).hash

/-- The directory with the files of the two blocks, the second one as given. -/
def twoBlocks (second : Text) : BlocksDir :=
  (Finmap.singleton (patchOf firstBlock).hash.toB58 (firstBlock.toStream noDigits)).insert
    (patchOf secondBlock).hash.toB58 second

/-- A file that is no block: it has a negative number of deltas. -/
def negativeCount : Text := Ripemd160.zero.toB58 ++ [' ', '-', '1']

/-- Both blocks are imported, and only the first one when the file of the
second one is no block. -/
theorem patchDb_applies_twoBlocks :
    (∃ u bs, Applied summingNode true (twoBlocks (secondBlock.toStream noDigits))
        (init summingNode) [patchOf firstBlock, patchOf secondBlock] bs u ∧
      u.lastBlockImported = (patchOf secondBlock).hash) ∧
    ∃ front back bs t, [patchOf secondBlock, patchOf firstBlock] = front ++ back ∧ front ≠ [] ∧
      Applied summingNode true (twoBlocks negativeCount) (init summingNode) back.reverse bs t ∧
      t.lastBlockImported = (patchOf firstBlock).hash := by
  have hwhole : ((init summingNode).patchDb summingNode true
      (twoBlocks (secondBlock.toStream noDigits)) [patchOf secondBlock, patchOf firstBlock]).map
        (fun r => r.2.2) = some true := by decide +kernel
  have hcorrupt : ((init summingNode).patchDb summingNode true (twoBlocks negativeCount)
      [patchOf secondBlock, patchOf firstBlock]).map
        (fun r => (r.2.2, r.1.lastBlockImported)) =
          some (false, (patchOf firstBlock).hash) := by decide +kernel
  constructor
  · obtain ⟨⟨t, dir', ok⟩, hpatch, hok⟩ := Option.map_eq_some_iff.mp hwhole
    obtain ⟨u, bs, happlied, hlast, -⟩ := (patchDb_applies (List.cons_ne_nil _ _) hpatch).1 hok
    exact ⟨u, bs, happlied, hlast⟩
  · obtain ⟨⟨t, dir', ok⟩, hpatch, hresult⟩ := Option.map_eq_some_iff.mp hcorrupt
    obtain ⟨rfl, hlast⟩ := Prod.mk.inj hresult
    obtain ⟨front, back, bs, hsplit, hfront, happlied, -⟩ :=
      (patchDb_applies (List.cons_ne_nil _ _) hpatch).2 rfl
    exact ⟨front, back, bs, t, hsplit, hfront, happlied, hlast⟩

end Daemon

end AcCore.Gov.Engine
