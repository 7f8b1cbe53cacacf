import AcCore.Gov.Engine.Storage
import AcCore.Gov.Engine.Syncd

/-!
# A node that has fallen behind

A node that has missed blocks walks back from the head of the chain to the last block
that it has imported. A file that is not there is asked for, and comes or does not
come, and so do files that nobody has asked for. This file counts the steps that it takes
until the node is in sync, and says what it has imported by then.
-/

namespace AcCore.Gov.Engine

open Lib Gov.Cash

variable {PubKey : Type} (σ : Setting PubKey) (debug : Bool)

/-! ## The chain that is missing -/

/-- In a chain of hashes that goes on from `last`, `p` comes right before `h`. -/
def Precedes (last : Ripemd160) (hs : List Ripemd160) (p h : Ripemd160) : Prop :=
  ∃ xs ys, hs = xs ++ h :: ys ∧ p = xs.getLast?.getD last

/-- The text is no block of the chain that names another one than it should. -/
def Genuine (last : Ripemd160) (hs : List Ripemd160) (content : Text) : Prop :=
  ∀ b, Diff.fromStream debug (some content) = some (some b) →
    ∀ p, Precedes last hs p (b.hash σ.ripemd σ.fmt) → b.prev = p

/-- The files with the names of the chain are its blocks, as far as they are there. -/
def BlocksDir.Agrees (dir : BlocksDir) (last : Ripemd160) (hs : List Ripemd160) : Prop :=
  ∀ p h text, Precedes last hs p h → dir.lookup h.toB58 = some text →
    ∃ b, Diff.fromStream debug (some text) = some (some b) ∧ b.hash σ.ripemd σ.fmt = h ∧ b.prev = p

/-- There is a file for each of the hashes. -/
def BlocksDir.Present (dir : BlocksDir) (hs : List Ripemd160) : Prop :=
  ∀ h ∈ hs, (dir.lookup h.toB58).isSome

/-- What has been a file stays as it is. -/
def BlocksDir.Extends (dir dir' : BlocksDir) : Prop :=
  ∀ (h : Ripemd160) text, dir.lookup h.toB58 = some text → dir'.lookup h.toB58 = some text

variable {σ debug} {last : Ripemd160} {hs : List Ripemd160} {dir dir' : BlocksDir}

/-- A hash that follows another one is of the chain. -/
theorem Precedes.mem {p h : Ripemd160} (hp : Precedes last hs p h) : h ∈ hs := by
  obtain ⟨xs, ys, rfl, -⟩ := hp
  exact List.mem_append_right xs List.mem_cons_self

/-- A block of the chain that an honest node has is genuine. -/
theorem genuine_of_agrees {h : Ripemd160} {text : Text} {b : Diff}
    (hagrees : dir.Agrees σ debug last hs) (hfile : dir.lookup h.toB58 = some text)
    (hread : Diff.fromStream debug (some text) = some (some b))
    (hhash : b.hash σ.ripemd σ.fmt = h) : Genuine σ debug last hs text := by
  intro b' hread' p hp
  obtain rfl : b = b' := Option.some.inj (Option.some.inj (hread.symm.trans hread'))
  rw [hhash] at hp
  obtain ⟨b'', hread'', -, hprev⟩ := hagrees p h text hp hfile
  obtain rfl : b = b'' := Option.some.inj (Option.some.inj (hread.symm.trans hread''))
  exact hprev

namespace BlocksDir

/-- Blocks stay present in a directory that only grows. -/
theorem Present.extends {hs : List Ripemd160} (h : dir.Present hs) (hext : dir.Extends dir') :
    dir'.Present hs := by
  intro x hx
  obtain ⟨text, htext⟩ := Option.isSome_iff_exists.mp (h x hx)
  rw [hext x text htext]
  rfl

/-- Writing the head deletes no block. -/
theorem extends_writeHead (dir : BlocksDir) (h : Ripemd160) : dir.Extends (dir.writeHead h) := by
  intro x text htext
  rwa [writeHead, Finmap.lookup_insert_of_ne _ (toB58_ne_headFile x)]

/-- Writing the head changes no block. -/
theorem Agrees.writeHead (h : dir.Agrees σ debug last hs) (x : Ripemd160) :
    (dir.writeHead x).Agrees σ debug last hs := by
  intro p y text hp htext
  rw [BlocksDir.writeHead, Finmap.lookup_insert_of_ne _ (toB58_ne_headFile y)] at htext
  exact h p y text hp htext

/-- What `process_block` does to the directory. -/
theorem processBlock_cases {ripemd : List UInt8 → Ripemd160} {content : Text}
    (h : dir.processBlock ripemd debug content = some dir') :
    dir' = dir ∨ ∃ b, Diff.fromStream debug (some content) = some (some b) ∧
      dir.lookup (b.hash ripemd sixFormat).toB58 = none ∧
      dir' = dir.insert (b.hash ripemd sixFormat).toB58 content := by
  obtain ⟨read, hread, rfl⟩ := Option.map_eq_some_iff.mp h
  rw [written, hread, Option.join_some]
  cases read with
  | none => exact Or.inl rfl
  | some b =>
    rw [Option.bind_some]
    dsimp only
    split_ifs with hthere
    · exact Or.inl rfl
    · exact Or.inr ⟨b, rfl, by simpa using hthere, rfl⟩

/-- Whatever arrives, files stay as they are. -/
theorem extends_processBlock {ripemd : List UInt8 → Ripemd160} {content : Text}
    (h : dir.processBlock ripemd debug content = some dir') : dir.Extends dir' := by
  obtain rfl | ⟨b, -, hnone, rfl⟩ := processBlock_cases h
  · exact fun _ _ htext => htext
  · intro x text htext
    rw [Finmap.lookup_insert_of_ne _ fun hname => ?_, htext]
    rw [hname, hnone] at htext
    cases htext

/-- Saving a genuine block keeps the directory in agreement with the chain. -/
theorem Agrees.processBlock (h : dir.Agrees σ debug last hs) (hfmt : σ.fmt = sixFormat)
    {content : Text} (hgenuine : Genuine σ debug last hs content)
    (hprocess : dir.processBlock σ.ripemd debug content = some dir') :
    dir'.Agrees σ debug last hs := by
  obtain rfl | ⟨b, hread, -, rfl⟩ := processBlock_cases hprocess
  · exact h
  · intro p x text hp htext
    rw [← hfmt] at htext
    by_cases hname : x.toB58 = (b.hash σ.ripemd σ.fmt).toB58
    · have hhash : b.hash σ.ripemd σ.fmt = x := by
        rw [← Ripemd160.fromB58_toB58 x, hname, Ripemd160.fromB58_toB58]
      rw [hname, Finmap.lookup_insert, Option.some.injEq] at htext
      subst htext
      exact ⟨b, hread, hhash, hgenuine b hread p (hhash ▸ hp)⟩
    · rw [Finmap.lookup_insert_of_ne _ hname] at htext
      exact h p x text hp htext

/-- The blocks that are held stay held. -/
theorem Holds.extends {h : Ripemd160} {b : Diff} (hholds : dir.Holds σ debug h b)
    (hext : dir.Extends dir') : dir'.Holds σ debug h b := by
  obtain ⟨hhash, text, hfile, hread⟩ := hholds
  exact ⟨hhash, text, hext h text hfile, hread⟩

end BlocksDir

/-- What was applied from a directory was applied from one that has more. -/
theorem Applied.extends {n t : Daemon} {ps : List Patch} {bs : List Diff}
    (h : Applied σ debug dir n ps bs t) (hext : dir.Extends dir') :
    Applied σ debug dir' n ps bs t where
  held := h.held.imp fun _ _ hholds => hholds.extends hext
  linked := h.linked
  imported := h.imported
  last := h.last

/-- The first word of a block is what it names. -/
theorem extractHash_of_fromStream {text : Text} {b : Diff}
    (h : Diff.fromStream debug (some text) = some (some b)) :
    (extractHash (some text)).1 = b.prev := by
  unfold Diff.fromStream at h
  dsimp only at h
  obtain ⟨⟨n, s⟩, -, h⟩ := Option.bind_eq_some_iff.mp h
  dsimp only at h
  split_ifs at h
  · cases h
  obtain ⟨⟨found, s⟩, -, h⟩ := Option.bind_eq_some_iff.mp h
  dsimp only at h
  obtain ⟨⟨m, s⟩, -, h⟩ := Option.bind_eq_some_iff.mp h
  dsimp only at h
  split_ifs at h
  · cases h
  · cases h
    rfl

namespace Syncing

/-! ## The way of the thread -/

/-- The blocks with the hashes `hs` are missing, up to the head of the node. -/
structure Missing (hs : List Ripemd160) (n : Daemon) : Prop where
  tail : n.tail = n.lastBlockImported
  head : hs.getLast? = some n.head
  nodup : hs.Nodup
  fresh : n.lastBlockImported ∉ hs
  nonzero : ∀ h ∈ hs, h.isZero = false

/-- The blocks of the chain have been imported one after the other, and the tail is the
head. -/
def CaughtUp (σ : Setting PubKey) (debug : Bool) (n : Daemon) (hs : List Ripemd160) (s : Syncing) :
    Prop :=
  ∃ ps bs t, ps.map Patch.hash = hs ∧ Applied σ debug s.dir n ps bs t ∧
    s.node = { t with tail := n.head }

/-- The thread is between two blocks, or between the head and what it looks for first: the
files after `cur` are there. -/
structure Between (n : Daemon) (s : Syncing) (next : Ripemd160)
    (rest done patches : List Ripemd160) : Prop where
  node : s.node = n
  next : next = rest.getLast?.getD n.lastBlockImported
  patches : patches = done.reverse
  present : s.dir.Present done

/-- Where the thread can be, when the main loop leaves it alone. -/
def OnTheWay (σ : Setting PubKey) (debug : Bool) (n : Daemon) (hs : List Ripemd160) (s : Syncing) :
    Prop :=
  match s.syncd with
  | .waiting =>
    (s.resume = true ∧ s.node = n ∧ s.cur = n.head) ∨
      (s.cur = n.head ∧ CaughtUp σ debug n hs s)
  | .check patches =>
    (∃ rest done, hs = rest ++ done ∧ Between n s s.cur rest done patches) ∨
      (patches = [] ∧ s.resume = false ∧ s.cur = n.head ∧ CaughtUp σ debug n hs s)
  | .look cu patches => ∃ rest done, hs = rest ++ cu :: done ∧ s.cur = cu ∧
      Between n s cu (rest ++ [cu]) done patches
  | .found prev patches => ∃ rest done, hs = rest ++ done ∧ Between n s prev rest done patches
  | .patching rest front => ∃ ps bs, hs = ps.map Patch.hash ++ rest ∧ front = n.head ∧
      Applied σ debug s.dir n ps bs s.node ∧ s.dir.Present rest
  | .updating lbi front => ∃ ps bs, ps.map Patch.hash = hs ∧ lbi = n.head ∧ front = n.head ∧
      Applied σ debug s.dir n ps bs s.node
  | .setting front => front = n.head ∧ s.resume = true ∧ s.cur = n.head ∧
      CaughtUp σ debug n hs s
  | _ => False

/-- The steps that are left for a chain of length `k`, if no file has to be asked for. -/
def stepsLeft (k : ℕ) (s : Syncing) : ℤ :=
  match s.syncd with
  | .waiting => if s.resume then (if s.inSync then 2 else 4 * k + 7) else 0
  | .check patches => if s.inSync then 1 else 4 * k + 6 - 3 * patches.length
  | .look _ patches => 4 * k + 5 - 3 * patches.length
  | .found _ patches => 4 * k + 7 - 3 * patches.length
  | .patching rest _ => rest.length + 5
  | .updating _ _ => 4
  | .setting _ => 3
  | _ => 0

/-- The thread looks for a file that is not there. -/
def asks (s : Syncing) : SyncEvent → Bool
  | .syncd _ _ _ =>
    match s.syncd with
    | .look cu _ => (s.getPrev cu).isNone
    | _ => false
  | _ => false

/-- A step of the thread counts one, and when a file has to be asked for this step and
the next one are in vain. -/
def advance (s : Syncing) : SyncEvent → ℤ
  | .syncd delivered picks drawn => if s.asks (.syncd delivered picks drawn) then -1 else 1
  | _ => 0

/-- What goes on while the node catches up: the thread takes steps, with no petition that
is the hundredth in a row, and texts arrive that are genuine. No new head is set. -/
def Undisturbed (σ : Setting PubKey) (debug : Bool) (last : Ripemd160) (hs : List Ripemd160)
    (s : Syncing) : SyncEvent → Prop
  | .syncd delivered _ _ =>
    match s.syncd with
    | .look cu _ => s.getPrev cu = none → delivered = true → s.lastQueryed = cu → s.queryReps ≠ 1
    | _ => True
  | .files dir => ∃ content, Genuine σ debug last hs content ∧
      s.dir.processBlock σ.ripemd debug content = some dir
  | .inSync => True
  | _ => False

/-- What holds while the node catches up. -/
structure CatchingUp (σ : Setting PubKey) (debug : Bool) (n : Daemon) (hs : List Ripemd160)
    (s : Syncing) : Prop where
  main : s.main = .idle
  agrees : s.dir.Agrees σ debug n.lastBlockImported hs
  onTheWay : OnTheWay σ debug n hs s

/-- The main loop has set a new head, and the thread waits. -/
structure Behind (σ : Setting PubKey) (debug : Bool) (hs : List Ripemd160) (s : Syncing) :
    Prop where
  main : s.main = .idle
  waiting : s.syncd = .waiting
  resume : s.resume = true
  cur : s.cur = s.node.head
  missing : Missing hs s.node
  agrees : s.dir.Agrees σ debug s.node.lastBlockImported hs

/-- A node that misses blocks has a head on the chain. -/
theorem Missing.head_mem {n : Daemon} (h : Missing hs n) : n.head ∈ hs :=
  List.mem_of_getLast? h.head

/-- A node that misses blocks has not reached its head. -/
theorem Missing.head_ne_tail {n : Daemon} (h : Missing hs n) : n.head ≠ n.tail := by
  rw [h.tail]
  exact fun heq => h.fresh (heq ▸ h.head_mem)

/-- Only behind the head there is nothing yet. -/
theorem Missing.eq_nil_of_head {n : Daemon} {rest done : List Ripemd160}
    (h : Missing (rest ++ n.head :: done) n) : done = [] := by
  by_contra hne
  have hlast : done.getLast? = some n.head := by
    have hhead := h.head
    rwa [List.getLast?_append_of_ne_nil _ (List.cons_ne_nil n.head done),
      List.getLast?_cons_of_ne_nil hne] at hhead
  have hnodup := (List.nodup_append.mp h.nodup).2.1
  exact (List.nodup_cons.mp hnodup).1 (List.mem_of_getLast? hlast)

variable {n : Daemon} {s s' : Syncing}

/-- A node that misses blocks is not in sync. -/
theorem Missing.not_inSync (h : Missing hs n) (hnode : s.node = n) : s.inSync = false := by
  rw [inSync, hnode]
  exact beq_false_of_ne h.head_ne_tail

/-- Imports do not touch head and tail. -/
theorem head_run_importPatch {t : Daemon} {bs : List (Diff × Patch)}
    (h : run (Daemon.importPatch σ) n bs = some t) : t.head = n.head ∧ t.tail = n.tail := by
  induction bs generalizing n with
  | nil =>
    cases Option.some.inj h
    exact ⟨rfl, rfl⟩
  | cons b bs ih =>
    obtain ⟨u, hb, hrest⟩ := run_cons_eq_some.mp h
    obtain ⟨⟨v, imported⟩, himport, hkept⟩ := Option.bind_eq_some_iff.mp hb
    obtain ⟨hhead, htail⟩ := ih hrest
    cases imported with
    | false => cases hkept
    | true =>
      cases Option.some.inj hkept
      obtain ⟨hv, hv'⟩ := head_importDiff himport
      exact ⟨hhead.trans hv, htail.trans hv'⟩

/-- A node that has caught up is in sync. -/
theorem CaughtUp.inSync (h : CaughtUp σ debug n hs s) : s.inSync = true := by
  obtain ⟨ps, bs, t, -, happlied, hnode⟩ := h
  rw [Syncing.inSync, hnode]
  exact beq_iff_eq.mpr (head_run_importPatch happlied.imported).1

/-! ## One step -/

/-- The thread goes on, and so many steps fewer are left. -/
structure GoesOn (σ : Setting PubKey) (debug : Bool) (n : Daemon) (hs : List Ripemd160)
    (s s' : Syncing) (d : ℤ) : Prop where
  main : s'.main = s.main
  agrees : s.dir.Agrees σ debug n.lastBlockImported hs →
    s'.dir.Agrees σ debug n.lastBlockImported hs
  onTheWay : OnTheWay σ debug n hs s'
  stepsLeft : s'.stepsLeft hs.length = s.stepsLeft hs.length - d

/-- A pass that asks for nothing goes on by one. -/
theorem advance_of_not_asks {delivered : Bool} {picks : List Ripemd160} {drawn : ℕ}
    (h : s.asks (.syncd delivered picks drawn) = false) :
    s.advance (.syncd delivered picks drawn) = 1 := by
  rw [advance, h]
  rfl

/-- The thread reads `head`, `cur` and `tail`. -/
theorem goesOn_check (hmissing : Missing hs n) {patches : List Ripemd160}
    (hat : s.syncd = .check patches) (h : OnTheWay σ debug n hs s) {delivered : Bool}
    {picks : List Ripemd160} {drawn : ℕ}
    (hstep : s.syncdStep σ debug delivered picks drawn = some s') :
    GoesOn σ debug n hs s s' 1 := by
  simp only [OnTheWay, hat] at h
  simp only [Syncing.syncdStep, hat] at hstep
  obtain ⟨rest, done, rfl, hbetween⟩ | ⟨rfl, hresume, hcur, hcaught⟩ := h
  · have hnot := hmissing.not_inSync hbetween.node
    obtain ⟨hnode, hnext, rfl, hpresent⟩ := hbetween
    have hhead : s.node.head.isZero = false := by
      rw [hnode]
      exact hmissing.nonzero _ hmissing.head_mem
    have htail : s.node.tail = n.lastBlockImported := by rw [hnode, hmissing.tail]
    obtain rfl | ⟨rest, cu, rfl⟩ := List.eq_nil_or_concat' rest
    · -- all files are there, the import begins with the first block after the last one
      have hcur : s.cur = s.node.tail := by rw [hnext, htail]; rfl
      rw [if_pos (Or.inl hcur)] at hstep
      rw [List.nil_append] at hmissing ⊢
      cases hdone : done.reverse with
      | nil =>
        rw [List.reverse_eq_nil_iff.mp hdone] at hmissing
        cases hmissing.head
      | cons front ps =>
        rw [hdone] at hstep
        obtain rfl := Option.some.inj hstep
        have hfront : front = n.head := by
          have hlast := hmissing.head
          rw [List.getLast?_eq_head?_reverse, hdone] at hlast
          exact Option.some.inj hlast
        have happlied : Applied σ debug s.dir n [] [] s.node :=
          ⟨.nil, trivial, congrArg some hnode.symm, by rw [hnode]; rfl⟩
        refine ⟨rfl, id, ⟨[], [], ?_, hfront, happlied, ?_⟩, ?_⟩
        · rw [← hdone, List.reverse_reverse]
          rfl
        · rw [← hdone, List.reverse_reverse]
          exact hpresent
        · simp only [stepsLeft, hat, hnot, ← hdone, List.length_reverse]
          push_cast
          ring
    · have hcur : s.cur = cu := by rw [hnext, List.getLast?_concat]; rfl
      have hmem : cu ∈ rest ++ [cu] ++ done := by simp
      have hgo : ¬ (s.cur = s.node.tail ∨ s.node.head.isZero = true ∨ s.cur.isZero = true) := by
        rw [hhead, hcur, hmissing.nonzero cu hmem, htail]
        rintro (heq | hfalse | hfalse)
        · exact hmissing.fresh (heq ▸ hmem)
        · cases hfalse
        · cases hfalse
      rw [if_neg hgo] at hstep
      obtain rfl := Option.some.inj hstep
      -- under the head nothing is dropped, since there is nothing yet
      have hpatches : (if s.cur = s.node.head then [] else done.reverse) = done.reverse := by
        split_ifs with heq
        · rw [hcur, hnode] at heq
          subst heq
          rw [List.append_assoc, List.singleton_append] at hmissing
          rw [hmissing.eq_nil_of_head, List.reverse_nil]
        · rfl
      refine ⟨rfl, id, ⟨rest, done, by simp [hcur], rfl, ⟨hnode, ?_, hpatches, hpresent⟩⟩, ?_⟩
      · rw [List.getLast?_concat]
        rfl
      · simp only [stepsLeft, hat, hnot, hpatches]
        simp
        ring
  · have hin := hcaught.inSync
    have hcur' : s.cur = s.node.tail := by
      rw [hcur]
      obtain ⟨ps, bs, t, -, -, hnode⟩ := hcaught
      rw [hnode]
    rw [if_pos (Or.inl hcur')] at hstep
    obtain rfl := Option.some.inj hstep
    refine ⟨rfl, id, Or.inr ⟨hcur, hcaught⟩, ?_⟩
    simp only [stepsLeft, hat, hin, hresume]
    rfl

/-- The thread looks for a file: it is there, or is asked for. -/
theorem goesOn_look (hmissing : Missing hs n)
    (hagrees : s.dir.Agrees σ debug n.lastBlockImported hs) {cu : Ripemd160}
    {patches : List Ripemd160} (hat : s.syncd = .look cu patches) (h : OnTheWay σ debug n hs s)
    {delivered : Bool} {picks : List Ripemd160} {drawn : ℕ}
    (hquiet : Undisturbed σ debug n.lastBlockImported hs s (.syncd delivered picks drawn))
    (hstep : s.syncdStep σ debug delivered picks drawn = some s') :
    GoesOn σ debug n hs s s' (s.advance (.syncd delivered picks drawn)) := by
  simp only [OnTheWay, hat] at h
  simp only [Undisturbed, hat] at hquiet
  simp only [Syncing.syncdStep, hat] at hstep
  obtain ⟨rest, done, hhs, hcur, hnode, -, rfl, hpresent⟩ := h
  cases hprev : s.getPrev cu with
  | some prev =>
    have hasks : s.asks (.syncd delivered picks drawn) = false := by
      simp only [asks, hat, hprev]
      rfl
    rw [hprev] at hstep
    obtain rfl := Option.some.inj hstep
    obtain ⟨text, hfile, hfirst⟩ := Option.map_eq_some_iff.mp hprev
    obtain ⟨b, hread, -, hb⟩ := hagrees _ cu text ⟨rest, done, hhs, rfl⟩ hfile
    rw [extractHash_of_fromStream hread, hb] at hfirst
    rw [advance_of_not_asks hasks]
    refine ⟨rfl, id, ⟨rest, cu :: done, hhs, ⟨hnode, hfirst.symm, by simp, ?_⟩⟩, ?_⟩
    · intro x hx
      rcases List.mem_cons.mp hx with rfl | hx
      · rw [hfile]
        rfl
      · exact hpresent x hx
    · simp only [stepsLeft, hat, List.length_append, List.length_reverse, List.length_singleton]
      push_cast
      ring
  | none =>
    have hasks : s.advance (.syncd delivered picks drawn) = -1 := by
      simp only [advance, asks, hat, hprev, Option.isNone_none, if_true]
    rw [hprev] at hstep
    obtain rfl := Option.some.inj hstep
    have hnot := hmissing.not_inSync hnode
    have hquery : (s.query delivered cu done.reverse).syncd = .check done.reverse ∧
        (s.query delivered cu done.reverse).node = s.node ∧
        (s.query delivered cu done.reverse).cur = s.cur ∧
        (s.query delivered cu done.reverse).dir = s.dir ∧
        (s.query delivered cu done.reverse).main = s.main := by
      unfold query
      split_ifs with hlost hother hlast
      · exact ⟨rfl, rfl, rfl, rfl, rfl⟩
      · exact ⟨rfl, rfl, rfl, rfl, rfl⟩
      · have := hquiet hprev (by simpa using hlost) (not_not.mp hother)
        omega
      · exact ⟨rfl, rfl, rfl, rfl, rfl⟩
    obtain ⟨hsyncd, hnode', hcur', hdir', hmain'⟩ := hquery
    have hnot' : (s.query delivered cu done.reverse).inSync = false := by
      rw [inSync, hnode']
      exact hnot
    rw [hasks]
    refine ⟨hmain', fun hagrees => hdir'.symm ▸ hagrees, ?_, ?_⟩
    · simp only [OnTheWay, hsyncd]
      refine Or.inl ⟨rest ++ [cu], done, by simpa using hhs, hnode'.trans hnode, ?_, rfl, ?_⟩
      · rw [hcur', hcur, List.getLast?_concat]
        rfl
      · rw [hdir']
        exact hpresent
    · simp only [stepsLeft, hsyncd, hat, hnot', List.length_reverse]
      simp
      ring

/-- The thread goes to the block before. -/
theorem goesOn_found (hmissing : Missing hs n) {prev : Ripemd160} {patches : List Ripemd160}
    (hat : s.syncd = .found prev patches) (h : OnTheWay σ debug n hs s) {delivered : Bool}
    {picks : List Ripemd160} {drawn : ℕ}
    (hstep : s.syncdStep σ debug delivered picks drawn = some s') :
    GoesOn σ debug n hs s s' 1 := by
  simp only [OnTheWay, hat] at h
  simp only [Syncing.syncdStep, hat] at hstep
  obtain ⟨rest, done, hhs, hnode, hnext, hpatches, hpresent⟩ := h
  have hnot := hmissing.not_inSync hnode
  obtain rfl := Option.some.inj hstep
  refine ⟨rfl, id, Or.inl ⟨rest, done, hhs, hnode, hnext, hpatches, hpresent⟩, ?_⟩
  rw [inSync] at hnot
  simp only [stepsLeft, hat, inSync, hnot]
  simp
  ring

/-- A block that comes next is imported, if the draws fit. -/
theorem patchLoop_of_holds {t : Daemon} {p : Patch} {b : Diff} {ok : Bool}
    (hholds : dir.Holds σ debug p.hash b) (hprev : b.prev = n.lastBlockImported)
    (h : n.patchLoop σ debug dir [p] = some (t, dir', ok)) :
    ok = true ∧ n.importDiff σ b p.picks p.drawn = some (t, true) ∧
      dir' = dir.writeHead t.lastBlockImported := by
  obtain ⟨hhash, text, hfile, hread⟩ := hholds
  rw [Daemon.patchLoop, hfile] at h
  dsimp only at h
  rw [hread, Option.bind_some] at h
  dsimp only at h
  rw [if_neg (not_not.mpr hhash)] at h
  obtain ⟨⟨u, imported⟩, himport, h⟩ := Option.bind_eq_some_iff.mp h
  have himported : imported = true := by
    unfold Daemon.importDiff at himport
    rw [if_neg (not_not.mpr hprev)] at himport
    obtain ⟨auth, -, hu⟩ := Option.map_eq_some_iff.mp himport
    exact (congrArg Prod.snd hu).symm
  subst himported
  rw [if_pos rfl, Daemon.patchLoop, Option.some.injEq] at h
  obtain ⟨rfl, rfl, rfl⟩ := h
  exact ⟨rfl, himport, rfl⟩

/-- One block more at the end. -/
theorem applied_snoc {t u : Daemon} {ps : List Patch} {bs : List Diff} {p : Patch} {b : Diff}
    (h : Applied σ debug dir n ps bs t) (hholds : dir.Holds σ debug p.hash b)
    (himport : t.importDiff σ b p.picks p.drawn = some (u, true)) :
    Applied σ debug dir n (ps ++ [p]) (bs ++ [b]) u := by
  have hlength := h.held.length_eq
  have hstep : t.importPatch σ (b, p) = some u := by
    rw [Daemon.importPatch, himport]
    rfl
  have hrun : run (Daemon.importPatch σ) n ((bs ++ [b]).zip (ps ++ [p])) = some u := by
    rw [List.zip_append hlength.symm, run_append, h.imported, Option.bind_some]
    exact run_cons_eq_some.mpr ⟨u, hstep, rfl⟩
  have hlinked := linkedFrom_of_run hrun
  rw [List.map_fst_zip (by simp [hlength])] at hlinked
  refine ⟨List.rel_append h.held (.cons hholds .nil), hlinked, hrun, ?_⟩
  obtain ⟨hfalse, -⟩ | ⟨-, -, hlast⟩ := Daemon.importDiff_eq_some himport
  · cases hfalse
  · rw [hlast, hholds.1, List.getLast?_concat]
    rfl

/-- One block is imported. -/
theorem goesOn_patching (hagrees : s.dir.Agrees σ debug n.lastBlockImported hs)
    {hash : Ripemd160} {rest : List Ripemd160} {front : Ripemd160}
    (hat : s.syncd = .patching (hash :: rest) front) (h : OnTheWay σ debug n hs s)
    {delivered : Bool} {picks : List Ripemd160} {drawn : ℕ}
    (hstep : s.syncdStep σ debug delivered picks drawn = some s') :
    GoesOn σ debug n hs s s' 1 := by
  simp only [OnTheWay, hat] at h
  simp only [Syncing.syncdStep, hat] at hstep
  obtain ⟨ps, bs, hhs, hfront, happlied, hpresent⟩ := h
  obtain ⟨⟨t, dir, ok⟩, hloop, rfl⟩ := Option.map_eq_some_iff.mp hstep
  obtain ⟨text, hfile⟩ := Option.isSome_iff_exists.mp (hpresent hash List.mem_cons_self)
  obtain ⟨b, hread, hhash, hprev⟩ := hagrees _ hash text ⟨_, rest, hhs, rfl⟩ hfile
  have hholds : s.dir.Holds σ debug hash b := ⟨hhash, text, hfile, hread⟩
  have hnext : b.prev = s.node.lastBlockImported := by
    rw [hprev, happlied.last, List.getLast?_map]
  obtain ⟨rfl, himport, rfl⟩ :=
    patchLoop_of_holds (p := ⟨hash, picks, drawn⟩) hholds hnext hloop
  have hext := BlocksDir.extends_writeHead s.dir t.lastBlockImported
  refine ⟨rfl, fun hagrees => hagrees.writeHead _, ⟨ps ++ [⟨hash, picks, drawn⟩], bs ++ [b],
    by simpa using hhs, hfront, (applied_snoc happlied hholds himport).extends hext, ?_⟩, ?_⟩
  · intro x hx
    exact hpresent.extends hext x (List.mem_cons_of_mem hash hx)
  · simp only [stepsLeft, hat, if_true, List.length_cons]
    push_cast
    ring

/-- All blocks are imported, the last one is the head. -/
theorem goesOn_patched (hmissing : Missing hs n) (h : OnTheWay σ debug n hs s) {front : Ripemd160}
    (hat : s.syncd = .patching [] front) {delivered : Bool} {picks : List Ripemd160} {drawn : ℕ}
    (hstep : s.syncdStep σ debug delivered picks drawn = some s') :
    GoesOn σ debug n hs s s' 1 := by
  simp only [OnTheWay, hat] at h
  simp only [Syncing.syncdStep, hat] at hstep
  obtain ⟨ps, bs, hhs, hfront, happlied, -⟩ := h
  obtain rfl := Option.some.inj hstep
  rw [List.append_nil] at hhs
  have hlast : s.node.lastBlockImported = n.head := by
    rw [happlied.last, ← List.getLast?_map, ← hhs, hmissing.head]
    rfl
  refine ⟨rfl, id, ⟨ps, bs, hhs.symm, hlast, hfront, happlied⟩, ?_⟩
  simp only [stepsLeft, hat]
  rfl

/-- The tail becomes the last block imported. -/
theorem goesOn_updating (h : OnTheWay σ debug n hs s) {lbi front : Ripemd160}
    (hat : s.syncd = .updating lbi front) {delivered : Bool} {picks : List Ripemd160} {drawn : ℕ}
    (hstep : s.syncdStep σ debug delivered picks drawn = some s') :
    GoesOn σ debug n hs s s' 1 := by
  simp only [OnTheWay, hat] at h
  simp only [Syncing.syncdStep, hat] at hstep
  obtain ⟨ps, bs, hhs, rfl, hfront, happlied⟩ := h
  obtain rfl := Option.some.inj hstep
  have hhead := (head_run_importPatch happlied.imported).1
  refine ⟨rfl, id, ⟨hfront, rfl, hhead, ps, bs, s.node, hhs, happlied, rfl⟩, ?_⟩
  simp only [stepsLeft, hat]
  rfl

/-- The tail becomes the first of the patches, which is the same. -/
theorem goesOn_setting (h : OnTheWay σ debug n hs s) {front : Ripemd160}
    (hat : s.syncd = .setting front) {delivered : Bool} {picks : List Ripemd160} {drawn : ℕ}
    (hstep : s.syncdStep σ debug delivered picks drawn = some s') :
    GoesOn σ debug n hs s s' 1 := by
  simp only [OnTheWay, hat] at h
  simp only [Syncing.syncdStep, hat] at hstep
  obtain ⟨rfl, hresume, hcur, ps, bs, t, hhs, happlied, hnode⟩ := h
  obtain rfl := Option.some.inj hstep
  have hcaught : CaughtUp σ debug n hs { s with
      node := { s.node with tail := n.head }, syncd := .waiting } :=
    ⟨ps, bs, t, hhs, happlied, by rw [hnode]⟩
  have hin : (s.node.head == n.head) = true := hcaught.inSync
  refine ⟨rfl, id, Or.inr ⟨hcur, hcaught⟩, ?_⟩
  simp only [stepsLeft, hat, hresume, inSync, hin]
  rfl

/-- The thread is woken up. -/
theorem goesOn_waiting (hmissing : Missing hs n) (hat : s.syncd = .waiting)
    (h : OnTheWay σ debug n hs s) {delivered : Bool} {picks : List Ripemd160} {drawn : ℕ}
    (hstep : s.syncdStep σ debug delivered picks drawn = some s') :
    GoesOn σ debug n hs s s' 1 := by
  simp only [OnTheWay, hat] at h
  simp only [Syncing.syncdStep, hat] at hstep
  obtain ⟨hresume, hstep⟩ := Option.ite_none_right_eq_some.mp hstep
  obtain rfl := Option.some.inj hstep
  obtain ⟨-, hnode, hcur⟩ | ⟨hcur, hcaught⟩ := h
  · have hnot := hmissing.not_inSync hnode
    refine ⟨rfl, id, Or.inl ⟨hs, [], by simp, hnode, ?_, rfl, fun x hx => (by cases hx)⟩, ?_⟩
    · rw [hmissing.head]
      exact hcur
    · rw [inSync] at hnot
      simp only [stepsLeft, hat, hresume, inSync, hnot]
      simp
      ring
  · have hin := hcaught.inSync
    refine ⟨rfl, id, Or.inr ⟨rfl, rfl, hcur, hcaught⟩, ?_⟩
    rw [inSync] at hin
    simp only [stepsLeft, hat, hresume, inSync, hin]
    rfl

/-- Files that arrive leave the thread where it is. -/
theorem OnTheWay.extends (h : OnTheWay σ debug n hs s) (hext : s.dir.Extends dir') :
    OnTheWay σ debug n hs { s with dir := dir' } := by
  unfold OnTheWay at h ⊢
  dsimp only
  have hcaught : CaughtUp σ debug n hs s → CaughtUp σ debug n hs { s with dir := dir' } := by
    rintro ⟨ps, bs, t, hhs, happlied, hnode⟩
    exact ⟨ps, bs, t, hhs, happlied.extends hext, hnode⟩
  have hbetween : ∀ {u : Syncing} {next rest done patches}, u.node = s.node → u.dir = dir' →
      Between n s next rest done patches → Between n u next rest done patches :=
    fun hnode hdir h => ⟨hnode.trans h.node, h.next, h.patches, hdir ▸ h.present.extends hext⟩
  cases hat : s.syncd with
  | waiting =>
    rw [hat] at h
    exact h.imp_right fun ⟨hcur, h⟩ => ⟨hcur, hcaught h⟩
  | check patches =>
    rw [hat] at h
    exact h.imp (fun ⟨rest, done, hhs, h⟩ => ⟨rest, done, hhs, hbetween rfl rfl h⟩)
      fun ⟨hpatches, hresume, hcur, h⟩ => ⟨hpatches, hresume, hcur, hcaught h⟩
  | look cu patches =>
    rw [hat] at h
    obtain ⟨rest, done, hhs, hcur, h⟩ := h
    exact ⟨rest, done, hhs, hcur, hbetween rfl rfl h⟩
  | found prev patches =>
    rw [hat] at h
    obtain ⟨rest, done, hhs, h⟩ := h
    exact ⟨rest, done, hhs, hbetween rfl rfl h⟩
  | patching rest front =>
    rw [hat] at h
    obtain ⟨ps, bs, hhs, hfront, happlied, hpresent⟩ := h
    exact ⟨ps, bs, hhs, hfront, happlied.extends hext, hpresent.extends hext⟩
  | updating lbi front =>
    rw [hat] at h
    obtain ⟨ps, bs, hhs, hlbi, hfront, happlied⟩ := h
    exact ⟨ps, bs, hhs, hlbi, hfront, happlied.extends hext⟩
  | setting front =>
    rw [hat] at h
    obtain ⟨hfront, hresume, hcur, h⟩ := h
    exact ⟨hfront, hresume, hcur, hcaught h⟩
  | reset patches =>
    rw [hat] at h
    exact h
  | clearing next =>
    rw [hat] at h
    exact h
  | cleared next =>
    rw [hat] at h
    exact h

/-- A step of the thread, wherever it is. -/
theorem CatchingUp.goesOn (h : CatchingUp σ debug n hs s) (hmissing : Missing hs n)
    {delivered : Bool} {picks : List Ripemd160} {drawn : ℕ}
    (hquiet : Undisturbed σ debug n.lastBlockImported hs s (.syncd delivered picks drawn))
    (hstep : s.syncdStep σ debug delivered picks drawn = some s') :
    GoesOn σ debug n hs s s' (s.advance (.syncd delivered picks drawn)) := by
  obtain ⟨-, hagrees, hway⟩ := h
  have hone : (∀ cu patches, s.syncd ≠ .look cu patches) →
      s.advance (.syncd delivered picks drawn) = 1 := by
    intro hnot
    refine advance_of_not_asks ?_
    simp only [asks]
  cases hat : s.syncd with
  | waiting =>
    rw [hone (by simp [hat])]
    exact goesOn_waiting hmissing hat hway hstep
  | check patches =>
    rw [hone (by simp [hat])]
    exact goesOn_check hmissing hat hway hstep
  | look cu patches => exact goesOn_look hmissing hagrees hat hway hquiet hstep
  | found prev patches =>
    rw [hone (by simp [hat])]
    exact goesOn_found hmissing hat hway hstep
  | patching rest front =>
    rw [hone (by simp [hat])]
    cases rest with
    | nil => exact goesOn_patched hmissing hway hat hstep
    | cons hash rest => exact goesOn_patching hagrees hat hway hstep
  | updating lbi front =>
    rw [hone (by simp [hat])]
    exact goesOn_updating hway hat hstep
  | setting front =>
    rw [hone (by simp [hat])]
    exact goesOn_setting hway hat hstep
  | reset patches => simp only [OnTheWay, hat] at hway
  | clearing next => simp only [OnTheWay, hat] at hway
  | cleared next => simp only [OnTheWay, hat] at hway

/-- **What one step does.** -/
theorem CatchingUp.step (h : CatchingUp σ debug n hs s) (hfmt : σ.fmt = sixFormat)
    (hmissing : Missing hs n) {e : SyncEvent}
    (hquiet : Undisturbed σ debug n.lastBlockImported hs s e)
    (hstep : s.step σ debug e = some s') :
    CatchingUp σ debug n hs s' ∧
      s'.stepsLeft hs.length = s.stepsLeft hs.length - s.advance e := by
  cases e with
  | syncd delivered picks drawn =>
    obtain ⟨hmain, hagrees, hway, hleft⟩ := h.goesOn hmissing hquiet hstep
    exact ⟨⟨hmain.trans h.main, hagrees h.agrees, hway⟩, hleft⟩
  | files dir =>
    obtain ⟨content, hgenuine, hprocess⟩ := hquiet
    obtain rfl := Option.some.inj hstep
    refine ⟨⟨h.main, h.agrees.processBlock hfmt hgenuine hprocess,
      h.onTheWay.extends (BlocksDir.extends_processBlock hprocess)⟩, ?_⟩
    exact (sub_zero (s.stepsLeft hs.length)).symm
  | inSync =>
    obtain rfl := Option.some.inj hstep
    exact ⟨h, (sub_zero (s.stepsLeft hs.length)).symm⟩
  | loadHead => exact hquiet.elim
  | eatDiff votedTip newDiff picks drawn => exact hquiet.elim
  | main => exact hquiet.elim

/-! ## A whole run -/

/-- The thread waits, and nobody has woken it up. -/
def Rests (s : Syncing) : Prop := s.syncd = .waiting ∧ s.resume = false

/-- There are steps left as long as the thread does not rest. -/
theorem OnTheWay.stepsLeft_nonneg (h : OnTheWay σ debug n hs s) (hmissing : Missing hs n) :
    0 ≤ s.stepsLeft hs.length ∧ (s.stepsLeft hs.length = 0 ↔ s.Rests) := by
  have hlength : ∀ {rest done : List Ripemd160}, hs = rest ++ done →
      (done.reverse.length : ℤ) ≤ hs.length := by
    rintro rest done rfl
    simp
  unfold OnTheWay at h
  unfold stepsLeft Rests
  cases hat : s.syncd with
  | waiting =>
    dsimp only
    cases s.resume with
    | false => simp
    | true =>
      simp only [if_true, Bool.true_eq_false, and_false, iff_false]
      split_ifs <;> omega
  | check patches =>
    rw [hat] at h
    dsimp only at h ⊢
    obtain ⟨rest, done, hhs, h⟩ | ⟨-, -, -, h⟩ := h
    · rw [hmissing.not_inSync h.node, h.patches]
      have := hlength hhs
      simp only [Bool.false_eq_true, if_false, reduceCtorEq, false_and, iff_false]
      omega
    · rw [h.inSync]
      simp
  | look cu patches =>
    rw [hat] at h
    dsimp only at h ⊢
    obtain ⟨rest, done, hhs, -, h⟩ := h
    have hsplit : hs = (rest ++ [cu]) ++ done := by simpa using hhs
    have := hlength hsplit
    rw [h.patches]
    simp only [reduceCtorEq, false_and, iff_false]
    omega
  | found prev patches =>
    rw [hat] at h
    dsimp only at h ⊢
    obtain ⟨rest, done, hhs, h⟩ := h
    have := hlength hhs
    rw [h.patches]
    simp only [reduceCtorEq, false_and, iff_false]
    omega
  | patching rest front =>
    simp only [reduceCtorEq, false_and, iff_false]
    omega
  | updating lbi front => simp
  | setting front => simp
  | reset patches =>
    rw [hat] at h
    exact h.elim
  | clearing next =>
    rw [hat] at h
    exact h.elim
  | cleared next =>
    rw [hat] at h
    exact h.elim

/-- The thread is stuck only when it rests, or when the draws do not fit. -/
theorem rests_of_stuck {delivered : Bool} {picks : List Ripemd160} {drawn : ℕ}
    (hstuck : s.syncdStep σ debug delivered picks drawn = none) :
    s.Rests ∨ ∃ hash rest front, s.syncd = .patching (hash :: rest) front := by
  unfold Syncing.syncdStep at hstuck
  cases hat : s.syncd with
  | waiting =>
    rw [hat] at hstuck
    dsimp only at hstuck
    cases hresume : s.resume with
    | false => exact Or.inl ⟨hat, hresume⟩
    | true =>
      rw [hresume] at hstuck
      cases hstuck
  | patching rest front =>
    cases rest with
    | nil =>
      rw [hat] at hstuck
      cases hstuck
    | cons hash rest => exact Or.inr ⟨hash, rest, front, rfl⟩
  | check patches =>
    rw [hat] at hstuck
    dsimp only at hstuck
    split_ifs at hstuck
    split at hstuck <;> cases hstuck
  | look cu patches =>
    rw [hat] at hstuck
    dsimp only at hstuck
    split at hstuck <;> cases hstuck
  | found prev patches =>
    rw [hat] at hstuck
    cases hstuck
  | updating lbi front =>
    rw [hat] at hstuck
    cases hstuck
  | setting front =>
    rw [hat] at hstuck
    cases hstuck
  | reset patches =>
    rw [hat] at hstuck
    cases hstuck
  | clearing next =>
    rw [hat] at hstuck
    cases hstuck
  | cleared next =>
    rw [hat] at hstuck
    cases hstuck

/-- A node that is behind begins to catch up. -/
theorem Behind.catchingUp (h : Behind σ debug hs s) : CatchingUp σ debug s.node hs s := by
  refine ⟨h.main, h.agrees, ?_⟩
  rw [OnTheWay, h.waiting]
  exact Or.inl ⟨h.resume, rfl, h.cur⟩

/-- A node that hashes by adding up, and prints as the stream does. -/
def sixNode : Setting Bool := { Daemon.summingNode with fmt := sixFormat }

/-- The hashes of the first two blocks. -/
def twoHashes : List Ripemd160 :=
  [(Daemon.patchOf Daemon.firstBlock).hash, (Daemon.patchOf Daemon.secondBlock).hash]

/-- A node without blocks, which is told of the second one. -/
def toldOfSecond : Syncing where
  node := { Daemon.init sixNode with head := (Daemon.patchOf Daemon.secondBlock).hash }
  cur := (Daemon.patchOf Daemon.secondBlock).hash
  resume := true
  dir := ∅
  lastQueryed := Ripemd160.zero
  queryReps := 100
  syncd := .waiting
  main := .idle

/-- The texts that arrive: the two blocks, and one that is no block. -/
def texts : List Text :=
  [Daemon.firstBlock.toStream sixFormat, Daemon.secondBlock.toStream sixFormat,
    Daemon.negativeCount]

/-- The directory after the first block. -/
def firstArrived : BlocksDir :=
  Finmap.singleton (Daemon.patchOf Daemon.firstBlock).hash.toB58
    (Daemon.firstBlock.toStream sixFormat)

/-- The first block arrives, the second one is asked for, a text arrives that is no
block, the second block arrives, and the thread goes on. -/
def askedForSecond : List SyncEvent :=
  .files firstArrived :: List.replicate 3 (.syncd true [] 0) ++
    [.files firstArrived, .files (Daemon.twoBlocks (Daemon.secondBlock.toStream sixFormat))] ++
    List.replicate 14 (.syncd true [] 0)

/-- The links of the chain of two blocks. -/
theorem precedes_twoHashes {p h : Ripemd160} (hp : Precedes Ripemd160.zero twoHashes p h) :
    (h, p) = ((Daemon.patchOf Daemon.firstBlock).hash, Ripemd160.zero) ∨
      (h, p) = ((Daemon.patchOf Daemon.secondBlock).hash,
        (Daemon.patchOf Daemon.firstBlock).hash) := by
  obtain ⟨xs, ys, hsplit, rfl⟩ := hp
  rcases xs with _ | ⟨x, _ | ⟨y, xs⟩⟩
  · rw [twoHashes, List.nil_append] at hsplit
    obtain ⟨rfl, -⟩ := List.cons.inj hsplit
    exact Or.inl rfl
  · rw [twoHashes, List.singleton_append] at hsplit
    obtain ⟨rfl, htail⟩ := List.cons.inj hsplit
    obtain ⟨rfl, -⟩ := List.cons.inj htail
    exact Or.inr rfl
  · have hlength := congrArg List.length hsplit
    simp [twoHashes] at hlength

/-- None of the texts is a forged block. -/
theorem genuine_texts {content : Text} (hcontent : content ∈ texts) :
    Genuine sixNode true Ripemd160.zero twoHashes content := by
  intro b hread p hp
  have hlinks : texts.all fun content => (Diff.fromStream true (some content)).join.all fun b =>
      (b.hash Daemon.byteSum sixFormat, b.prev) = ((Daemon.patchOf Daemon.firstBlock).hash,
        Ripemd160.zero) ∨
      (b.hash Daemon.byteSum sixFormat, b.prev) = ((Daemon.patchOf Daemon.secondBlock).hash,
        (Daemon.patchOf Daemon.firstBlock).hash) := by
    decide +kernel
  have hlink := List.all_eq_true.mp hlinks content hcontent
  rw [hread, Option.join_some, Option.all_some, decide_eq_true_eq] at hlink
  have hne : (Daemon.patchOf Daemon.firstBlock).hash ≠
      (Daemon.patchOf Daemon.secondBlock).hash := by decide +kernel
  simp only [Prod.mk.injEq] at hlink
  obtain ⟨hhash, hprev⟩ | ⟨hhash, hprev⟩ := hlink
  · obtain hfirst | hsecond := precedes_twoHashes hp
    · exact hprev.trans (Prod.mk.inj hfirst).2.symm
    · exact absurd (hhash.symm.trans (Prod.mk.inj hsecond).1) hne
  · obtain hfirst | hsecond := precedes_twoHashes hp
    · exact absurd ((Prod.mk.inj hfirst).1.symm.trans hhash) hne
    · exact hprev.trans (Prod.mk.inj hsecond).2.symm

/-- A node that is told of the second block is behind by two. -/
theorem behind_toldOfSecond : Behind sixNode true twoHashes toldOfSecond where
  main := rfl
  waiting := rfl
  resume := rfl
  cur := rfl
  missing := ⟨rfl, rfl, by decide +kernel, by decide +kernel, by decide +kernel⟩
  agrees p h text _ htext := by cases htext

/-- What comes are the texts, and no file is asked for a hundred times. -/
def BringsTexts (s : Syncing) : SyncEvent → Prop
  | .syncd _ _ _ => s.queryReps ≠ 1
  | .files dir => ∃ content ∈ texts, s.dir.processBlock Daemon.byteSum true content = some dir
  | _ => False

/-- The texts of a chain are finitely many. -/
instance (s : Syncing) : ∀ e : SyncEvent, Decidable (s.BringsTexts e)
  | .syncd _ _ _ => inferInstanceAs (Decidable (s.queryReps ≠ 1))
  | .files dir => inferInstanceAs (Decidable (∃ content ∈ texts,
      s.dir.processBlock Daemon.byteSum true content = some dir))
  | .loadHead | .eatDiff _ _ _ _ | .main | .inSync => inferInstanceAs (Decidable False)

end Syncing

end AcCore.Gov.Engine
