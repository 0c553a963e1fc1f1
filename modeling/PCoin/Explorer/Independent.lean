import PCoin.Explorer.Sync
import PCoin.Explorer.Balance
import Mathlib.Data.Set.Basic

namespace pcoin.explorer

/-- The chains that a node serves over time. A hash names one block. -/
structure Node (genesis : String) where
  chains : Set (List Block)
  valid : ∀ chain ∈ chains, Valid genesis chain
  hash_inj : ∀ chain ∈ chains, ∀ chain' ∈ chains, ∀ b ∈ chain, ∀ b' ∈ chain',
    b.hash = b'.hash → b = b'

/-- The block is on one of the chains. -/
def Node.Has {genesis : String} (node : Node genesis) (b : Block) : Prop :=
  ∃ chain ∈ node.chains, b ∈ chain

/-- Calls of the indexer against a node: each block that it answers with is on a chain of its
own. `find_fork` gives no height below -1 to `unwind_to`. -/
def Served {genesis : String} (node : Node genesis) (_ : State) : Event → Prop
  | .blocks (some reply) => ∀ b, some b ∈ reply → node.Has b
  | .unwindTo fork => -1 ≤ fork
  | _ => True

instance {genesis : String} (node : Node genesis) [DecidablePred node.Has] (s : State) :
    (e : Event) → Decidable (Served node s e)
  | .blocks (some reply) =>
    decidable_of_iff (∀ x ∈ reply, ∀ b ∈ x, node.Has b)
      ⟨fun h b hb => h (some b) hb b rfl, fun h _ hx b hb => h b (hb ▸ hx)⟩
  | .unwindTo fork => inferInstanceAs (Decidable (-1 ≤ fork))
  | .blocks none | .syncOnce .. | .handleReorg _ | .info _ | .peers _ | .hash _ | .hashes _
  | .commit | .fail | .tick | .crash => .isTrue trivial

section

variable {genesis : String} {node : Node genesis} {chain : List Block} {b : Block}

/-! ### Branches -/

theorem Valid.of_append {rest : List Block} (h : Valid genesis (chain ++ rest)) :
    Valid genesis chain := by
  induction rest using List.reverseRecOn with
  | nil => rwa [List.append_nil] at h
  | append_singleton rest b ih =>
    rw [← List.append_assoc] at h
    exact ih h.init

theorem Node.eq_of_hash_eq {b' : Block} (hb : node.Has b) (hb' : node.Has b')
    (h : b.hash = b'.hash) : b = b' := by
  obtain ⟨chain, hchain, hb⟩ := hb
  obtain ⟨chain', hchain', hb'⟩ := hb'
  exact node.hash_inj chain hchain chain' hchain' b hb b' hb' h

/-- A hash commits to the whole chain below its block. -/
theorem eq_of_last_hash_eq {chain' : List Block} (h : Valid genesis chain)
    (h' : Valid genesis chain') (hhas : ∀ b ∈ chain, node.Has b) (hhas' : ∀ b ∈ chain', node.Has b)
    (hlength : chain.length = chain'.length)
    (hlast : chain.getLast?.map Block.hash = chain'.getLast?.map Block.hash) : chain = chain' := by
  induction chain using List.reverseRecOn generalizing chain' with
  | nil => exact (List.eq_nil_of_length_eq_zero hlength.symm).symm
  | append_singleton chain b ih =>
    induction chain' using List.reverseRecOn with
    | nil => simp at hlength
    | append_singleton chain' b' _ =>
      have hhash : b.hash = b'.hash := by simpa using hlast
      obtain rfl : b = b' := Node.eq_of_hash_eq (hhas b (by simp)) (hhas' b' (by simp)) hhash
      have hlength' : chain.length = chain'.length := by simpa using hlength
      have hparent : chain.getLast?.map Block.hash = chain'.getLast?.map Block.hash := by
        by_cases hzero : b.height = 0
        · have hnil : chain.length = 0 := h.height_last ▸ hzero
          rw [List.eq_nil_of_length_eq_zero hnil,
            List.eq_nil_of_length_eq_zero (hlength'.symm.trans hnil)]
        · rw [← h.prev_hash_last hzero, ← h'.prev_hash_last hzero]
      rw [ih h.init h'.init (fun x hx => hhas x (by simp [hx])) (fun x hx => hhas' x (by simp [hx]))
        hlength' hparent]

/-- The blocks of the index are a valid chain of blocks that the node served. -/
structure Node.Indexed (node : Node genesis) (chain : List Block) : Prop where
  valid : Valid genesis chain
  has : ∀ b ∈ chain, node.Has b

theorem Node.Indexed.nil : node.Indexed [] where
  valid := ⟨rfl, by simp, .nil, by simp, trivial⟩
  has := by simp

theorem Node.Indexed.init (h : node.Indexed (chain ++ [b])) : node.Indexed chain :=
  ⟨h.valid.init, fun x hx => h.has x (by simp [hx])⟩

/-- A block of the node that extends the index comes after the same blocks there. -/
theorem Node.Indexed.append (h : node.Indexed chain) (hb : node.Has b)
    (hextends : (replay chain).Extends b) : node.Indexed (chain ++ [b]) := by
  obtain ⟨full, hfull, hmem⟩ := hb
  obtain ⟨pre, post, rfl⟩ := List.append_of_mem hmem
  have hvalid : Valid genesis (pre ++ [b]) := by
    have hfull' := node.valid _ hfull
    rw [← List.singleton_append, ← List.append_assoc] at hfull'
    exact hfull'.of_append
  obtain ⟨hheight, hprev⟩ := hextends
  rw [tip_replay h.valid] at hheight hprev
  have hlength : pre.length = chain.length := by
    have hlast := hvalid.height_last
    dsimp only at hheight
    omega
  have hhas : ∀ x ∈ pre, node.Has x := fun x hx => ⟨_, hfull, by simp [hx]⟩
  have hparent : pre.getLast?.map Block.hash = chain.getLast?.map Block.hash := by
    by_cases hzero : b.height = 0
    · have hnil : pre.length = 0 := hvalid.height_last ▸ hzero
      rw [List.eq_nil_of_length_eq_zero hnil,
        List.eq_nil_of_length_eq_zero (hlength.symm.trans hnil)]
    · rw [← hvalid.prev_hash_last hzero, hprev hzero]
  obtain rfl := eq_of_last_hash_eq hvalid.init h.valid hhas h.has hlength hparent
  refine ⟨hvalid, fun x hx => ?_⟩
  obtain hx | hx := List.mem_append.mp hx
  · exact h.has x hx
  · rw [List.mem_singleton.mp hx]
    exact ⟨_, hfull, hmem⟩

/-- Blocks of one chain have different hashes. -/
theorem Node.Indexed.hash_not_mem (h : node.Indexed (chain ++ [b])) :
    b.hash ∉ chain.map Block.hash := by
  intro hmem
  obtain ⟨a, ha, hhash⟩ := List.mem_map.mp hmem
  obtain rfl := Node.eq_of_hash_eq (h.has a (by simp [ha])) (h.has b (by simp)) hhash
  exact lt_irrefl _ (h.valid.block_height_lt ha)

/-- What `_apply_locked` does with a block of the node. -/
theorem Node.Indexed.applyLocked (h : node.Indexed chain) (hb : node.Has b) :
    (applyLocked genesis (replay chain) b = .error .chainLink) ∨
    (node.Indexed (chain ++ [b]) ∧
      applyLocked genesis (replay chain) b = .ok (replay (chain ++ [b]))) := by
  by_cases hextends : (replay chain).Extends b
  · have happend := h.append hb hextends
    exact .inr ⟨happend, applyLocked_replay happend.valid happend.hash_not_mem⟩
  · exact .inl (applyLocked_of_not_extends hextends)

/-- The chain is replayed into an empty index. -/
theorem Node.Indexed.foldlM (h : node.Indexed chain) :
    chain.foldlM (explorer.applyLocked genesis) {} = .ok (replay chain) := by
  induction chain using List.reverseRecOn with
  | nil => rfl
  | append_singleton chain b ih =>
    rw [List.foldlM_append]
    refine run.bind_eq_ok.mpr ⟨_, ih h.init, ?_⟩
    rw [List.foldlM_cons, applyLocked_replay h.valid h.hash_not_mem]
    rfl

/-! ### Runs -/

/-- The search has not gone below the height -1. -/
def Probe.Sound : Probe → Prop
  | .top hi => -1 ≤ hi
  | .down _ _ bad => -1 ≤ bad
  | .mid lo hi => -1 ≤ lo ∧ -1 ≤ hi

def Found : Probe ⊕ Int → Prop
  | .inl p => p.Sound
  | .inr fork => -1 ≤ fork

/-- The blocks that are held came from the node, and nothing below the genesis block is to be
unwound. -/
def Pc.Sound (node : Node genesis) (t : Tables) : Pc → Prop
  | .apply _ blk rest => node.Has blk ∧ ∀ b, some b ∈ rest → node.Has b
  | .probe p _ => p.Sound
  | .reorgStatus fork _ | .reorgLog fork _ => -1 ≤ fork
  | .unwind fork _ _ => -1 ≤ fork ∧ fork < t.tip.1
  | _ => True

/-- The tables are those of a chain of the node, and no call has ended with an exception. -/
structure Synced (node : Node genesis) (s : State) : Prop where
  indexed : ∃ chain, node.Indexed chain ∧ s.tables = replay chain
  quiet : s.raised = []
  sound : ∀ pc ∈ s.proc, pc.Sound node s.tables

theorem search_found {lo hi : Int} (hlo : -1 ≤ lo) (hhi : -1 ≤ hi) : Found (search lo hi) := by
  unfold search
  split
  · exact ⟨hlo, hhi⟩
  · exact hlo

theorem next_found {p : Probe} (hp : p.Sound) (agree : Bool) : Found (p.next agree) := by
  cases p with
  | top hi =>
    cases agree with
    | true => exact hp
    | false => exact hp
  | down hi step bad =>
    have hprobe : -1 ≤ max 0 (hi - step) := by omega
    cases agree with
    | true => exact search_found hprobe hp
    | false =>
      rw [Probe.next, if_neg Bool.false_ne_true]
      split
      · exact le_refl (-1 : Int)
      · exact hprobe
  | mid lo hi =>
    have hm : -1 ≤ (lo + hi) / 2 := by
      have hlo := hp.1
      have hhi := hp.2
      omega
    cases agree with
    | true => exact search_found hm hp.2
    | false => exact search_found hp.1 hm

variable {t : Tables} {v : Vars}

theorem startReorg_sound (t : Tables) (node_height : Int) (after : Return) :
    (startReorg t node_height after).Sound node t := by
  unfold startReorg
  dsimp only
  split
  · exact le_refl (-1 : Int)
  · rename_i hhi
    have hsound : -1 ≤ min t.tip.1 node_height := by omega
    exact hsound

theorem loop_sound (t : Tables) (v : Vars) : (loop t v).Sound node t := by
  unfold loop
  split_ifs
  · trivial
  · trivial
  · trivial
  · exact startReorg_sound ..
  · trivial

theorem nextBlock_sound {blocks : List (Option Block)} (h : ∀ b, some b ∈ blocks → node.Has b) :
    (nextBlock t v blocks).Sound node t := by
  cases blocks with
  | nil => exact loop_sound t v
  | cons b rest =>
    cases b with
    | none => trivial
    | some b => exact ⟨h b List.mem_cons_self, fun x hx => h x (List.mem_cons_of_mem _ hx)⟩

theorem nextUnwind_sound {fork : Int} {n : Nat} {after : Return} (hfork : -1 ≤ fork) :
    ∀ pc ∈ nextUnwind t fork n after, pc.Sound node t := by
  intro pc hpc
  unfold nextUnwind at hpc
  split at hpc
  · split at hpc
    · cases hpc
    · obtain rfl := Option.some.inj hpc
      trivial
  · rename_i hlt
    obtain rfl := Option.some.inj hpc
    exact ⟨hfork, by omega⟩

theorem afterReorg_sound {n : Nat} {after : Return} :
    ∀ pc ∈ afterReorg t n after, pc.Sound node t := by
  intro pc hpc
  cases after with
  | unwind | reorg => cases hpc
  | level v =>
    obtain rfl := Option.some.inj hpc
    split
    · trivial
    · exact loop_sound t v
  | link v =>
    obtain rfl := Option.some.inj hpc
    exact loop_sound t v

/-- The answers of the node leave the tables as they are. -/
theorem Synced.answer {s s' : State} {pc : Pc} {e : Event} (hs : Synced node s)
    (hpc : pc.Sound node s.tables) (hserved : Served node s e) (h : answer s pc e = some s') :
    Synced node s' := by
  obtain ⟨hindexed, hquiet, -⟩ := hs
  have hgoto : ∀ pc : Pc, pc.Sound node s.tables → Synced node (s.goto pc) := by
    intro pc hpc
    refine ⟨hindexed, hquiet, fun pc' hpc' => ?_⟩
    obtain rfl := Option.some.inj hpc'
    exact hpc
  have hdone : Synced node s.done := ⟨hindexed, hquiet, by simp [State.done]⟩
  unfold explorer.answer at h
  split at h
  case h_6 p after reply =>
    have hfound := next_found hpc
      (s.tables.hashAt p.height ≠ none ∧ s.tables.hashAt p.height = reply)
    dsimp only at h
    split at h
    · rename_i hnext
      rw [hnext] at hfound
      obtain rfl := Option.some.inj h
      exact hgoto _ hfound
    · rename_i hnext
      rw [hnext] at hfound
      obtain rfl := Option.some.inj h
      exact hgoto _ hfound
  case h_8 =>
    split_ifs at h
    all_goals obtain rfl := Option.some.inj h
    all_goals exact hgoto _ trivial
  case h_10 =>
    split at h
    · cases h
    · obtain rfl := Option.some.inj h
      exact hgoto _ (nextBlock_sound hserved)
  case h_11 => cases h
  all_goals obtain rfl := Option.some.inj h
  all_goals first | exact hdone | exact hgoto _ trivial

/-- Every transaction leaves the tables of a chain of the node, and none fails. -/
theorem Synced.commit {s s' : State} {pc : Pc} (hs : Synced node s) (hpc : pc.Sound node s.tables)
    (h : commit genesis s pc = some s') : Synced node s' := by
  obtain ⟨⟨chain, hindexed, htables⟩, hquiet, -⟩ := hs
  cases pc with
  | pollFailed =>
    obtain rfl := Option.some.inj h
    exact ⟨⟨chain, hindexed, htables⟩, hquiet, by simp⟩
  | pollCommit v info connections polled =>
    obtain rfl := Option.some.inj h
    refine ⟨⟨chain, hindexed, htables⟩, hquiet, fun pc hpc => ?_⟩
    obtain rfl := Option.some.inj hpc
    exact loop_sound ..
  | reorgStatus fork after =>
    obtain rfl := Option.some.inj h
    refine ⟨⟨chain, hindexed, htables⟩, hquiet, fun pc' hpc' => ?_⟩
    obtain rfl := Option.some.inj hpc'
    exact hpc
  | reorgLog fork after =>
    obtain rfl := Option.some.inj h
    exact ⟨⟨chain, hindexed, htables⟩, hquiet, nextUnwind_sound hpc⟩
  | unwind fork n after =>
    obtain ⟨hfork, htip⟩ := hpc
    rw [htables, tip_replay hindexed.valid] at htip
    -- the tip is above the height -1, so there is a last block
    induction chain using List.reverseRecOn with
    | nil => simp at htip; omega
    | append_singleton chain b _ =>
      simp only [explorer.commit, htables, tip_replay_append hindexed.valid,
        unwindLocked_replay hindexed.valid] at h
      obtain rfl := Option.some.inj h
      exact ⟨⟨chain, hindexed.init, rfl⟩, hquiet, nextUnwind_sound hfork⟩
  | reorgDone n after =>
    obtain rfl := Option.some.inj h
    exact ⟨⟨chain, hindexed, htables⟩, hquiet, afterReorg_sound⟩
  | apply v blk rest =>
    obtain ⟨hblk, hrest⟩ := hpc
    simp only [explorer.commit, htables] at h
    obtain happly | ⟨happend, happly⟩ := hindexed.applyLocked hblk
    · rw [happly] at h
      obtain rfl := Option.some.inj h
      refine ⟨⟨chain, hindexed, htables⟩, hquiet, fun pc hpc => ?_⟩
      obtain rfl := Option.some.inj hpc
      have hgoto : (s.goto (startReorg (replay chain) v.node_height (.link v))).tables =
          replay chain := htables
      rw [hgoto]
      exact startReorg_sound ..
    · rw [happly] at h
      obtain rfl := Option.some.inj h
      refine ⟨⟨_, happend, rfl⟩, hquiet, fun pc hpc => ?_⟩
      obtain rfl := Option.some.inj hpc
      exact nextBlock_sound hrest
  | finish v ending =>
    obtain rfl := Option.some.inj h
    refine ⟨⟨chain, hindexed, ?_⟩, hquiet, by simp⟩
    rw [htables]
    rfl
  | info | peers | probe | hashes | blocks => cases h

theorem Synced.step {s s' : State} {e : Event} (hs : Synced node s) (hserved : Served node s e)
    (h : step genesis s e = some s') : Synced node s' := by
  have hkeep : ∀ pc : Pc, pc.Sound node s.tables → Synced node (s.goto pc) := by
    intro pc hpc
    refine ⟨hs.indexed, hs.quiet, fun pc' hpc' => ?_⟩
    obtain rfl := Option.some.inj hpc'
    exact hpc
  cases e with
  | syncOnce batch max_blocks =>
    simp only [explorer.step, Option.bind_eq_bind, Option.bind_eq_some_iff] at h
    obtain ⟨-, -, h⟩ := h
    obtain rfl := Option.some.inj h
    exact hkeep _ trivial
  | handleReorg node_height =>
    simp only [explorer.step, Option.bind_eq_bind, Option.bind_eq_some_iff] at h
    obtain ⟨-, -, h⟩ := h
    obtain rfl := Option.some.inj h
    exact hkeep _ (startReorg_sound ..)
  | unwindTo fork =>
    simp only [explorer.step, Option.bind_eq_bind, Option.bind_eq_some_iff] at h
    obtain ⟨-, -, h⟩ := h
    obtain rfl := Option.some.inj h
    exact ⟨hs.indexed, hs.quiet, nextUnwind_sound hserved⟩
  | commit =>
    simp only [explorer.step, Option.bind_eq_bind, Option.bind_eq_some_iff] at h
    obtain ⟨pc, hpc, h⟩ := h
    exact hs.commit (hs.sound pc hpc) h
  | tick =>
    obtain rfl := Option.some.inj h
    exact ⟨hs.indexed, hs.quiet, hs.sound⟩
  | fail | crash =>
    obtain rfl := Option.some.inj h
    exact ⟨hs.indexed, hs.quiet, by simp [State.done]⟩
  | info | peers | hash | hashes | blocks =>
    simp only [explorer.step, Option.bind_eq_bind, Option.bind_eq_some_iff] at h
    obtain ⟨pc, hpc, h⟩ := h
    exact hs.answer (hs.sound pc hpc) hserved h

/-- Over every sequence of calls against a node that reorganises at will, with failures and
crashes, the index is the one that its blocks, applied to an empty index, give. They are a
linked chain from the genesis block, no call finds the index corrupt, unwinding is the inverse
of applying, and the rows of addresses are those that follow from the outputs. -/
theorem index_path_independent (node : Node genesis) (now : Nat) {s : State}
    (hrun : run.Steps (step genesis) (Served node) { now := now } s) :
    (∃ chain, Valid genesis chain ∧ (∀ b ∈ chain, node.Has b) ∧
      s.tables.blocks = chain.map Block.row ∧
      chain.foldlM (applyLocked genesis) {} = .ok s.tables) ∧
    s.raised = [] ∧
    (∀ b t, node.Has b → applyLocked genesis s.tables b = .ok t →
      unwindLocked t b.height = .ok s.tables) ∧
    (∀ address, table.find AddressRow.address address s.tables.addresses =
      s.tables.recompute address) ∧
    (∀ a ∈ s.tables.addresses,
      a.balance = ((s.tables.unspentAt a.address).map OutputRow.value).sum ∧
      a.utxo_count = (s.tables.unspentAt a.address).length) ∧
    ∀ address, (addressSummary s.tables address).spendable =
      ((s.tables.mature address).map OutputRow.value).sum := by
  have hinit : Synced node { now := now } := ⟨⟨[], .nil, rfl⟩, rfl, by simp⟩
  have hsynced := hrun.invariant (fun _ _ _ hs hok hstep => hs.step hok hstep) hinit
  obtain ⟨⟨chain, hindexed, htables⟩, hquiet, -⟩ := hsynced
  rw [htables]
  refine ⟨⟨chain, hindexed.valid, hindexed.has, rfl, hindexed.foldlM⟩, hquiet, ?_, ?_, ?_, ?_⟩
  · intro b t hb happly
    obtain hlink | ⟨happend, hok⟩ := hindexed.applyLocked hb
    · rw [hlink] at happly
      cases happly
    · rw [hok] at happly
      obtain rfl := Except.ok.inj happly
      exact unwindLocked_replay happend.valid
  · exact find_replay chain
  · intro a ha
    exact row_replay hindexed.valid ha
  · exact spendable_replay hindexed.valid

end

/-- A transaction that pays 50 to a miner. -/
def coinbase (txid address : String) (unspendable : Bool) : Tx :=
  { txid := txid, block_index := 0, is_coinbase := true, inputs := [{ n := 0 }],
    outputs := [{ n := 0, value := 50, address := some address, unspendable := unspendable }] }

def firstBranch : List Block :=
  [⟨0, "g", none, [coinbase "tg" "G" true]⟩, ⟨1, "a", some "g", [coinbase "ta" "A" false]⟩]

def secondBranch : List Block :=
  [⟨0, "g", none, [coinbase "tg" "G" true]⟩, ⟨1, "b", some "g", [coinbase "tb" "B" false]⟩,
   ⟨2, "c", some "b", [coinbase "tc" "B" false]⟩]

/-- A node that leaves its first branch for a longer one. -/
def twoBranches : Node "g" where
  chains := {firstBranch, secondBranch}
  valid := by
    rintro chain (rfl | rfl)
    · decide +kernel
    · decide +kernel
  hash_inj := by
    have hinj : ∀ b ∈ firstBranch ++ secondBranch, ∀ b' ∈ firstBranch ++ secondBranch,
        b.hash = b'.hash → b = b' := by decide +kernel
    rintro chain (rfl | rfl) chain' (rfl | rfl) b hb b' hb'
    all_goals exact hinj b (by simp [hb]) b' (by simp [hb'])

instance : DecidablePred twoBranches.Has := fun b =>
  decidable_of_iff (b ∈ firstBranch ∨ b ∈ secondBranch) (by simp [Node.Has, twoBranches])

/-- The index follows the node to its second branch. -/
def followed : List Event :=
  [.syncOnce 10 none, .info (some ⟨1, "a", false⟩), .peers (some (some 3)), .commit,
   .hashes (some [some "g", some "a"]), .blocks (some (firstBranch.map some)),
   .commit, .commit, .commit,
   .syncOnce 10 none, .info (some ⟨2, "c", false⟩), .peers (some (some 3)), .commit,
   .hashes (some [some "c"]), .blocks (some ((secondBranch.drop 2).map some)), .commit,
   .hash (some (some "b")), .hash (some (some "g")), .commit, .commit, .commit, .commit,
   .hashes (some [some "b", some "c"]), .blocks (some ((secondBranch.drop 1).map some)),
   .commit, .commit, .commit]

theorem index_path_independent_followed :
    ∃ s, run.Steps (step "g") (Served twoBranches) { now := 0 } s ∧
      s.tables.tip = (2, some "c") ∧ s.raised = [] ∧
      ∃ chain, Valid "g" chain ∧ chain.foldlM (applyLocked "g") {} = .ok s.tables := by
  have hexec : (run.exec (step "g") { now := 0 } followed).isSome := by decide +kernel
  obtain ⟨s, hs⟩ := Option.isSome_iff_exists.mp hexec
  have hrun : run.Steps (step "g") (Served twoBranches) { now := 0 } s :=
    run.steps_of_exec _ hs (by decide +kernel)
  have htip : ∀ s ∈ run.exec (step "g") { now := 0 } followed, s.tables.tip = (2, some "c") := by
    decide +kernel
  obtain ⟨⟨chain, hvalid, -, -, hreplay⟩, hquiet, -⟩ := index_path_independent twoBranches 0 hrun
  exact ⟨s, hrun, htip s hs, hquiet, chain, hvalid, hreplay⟩

end pcoin.explorer
