import PCoin.Explorer.FindFork

namespace pcoin.explorer

section

variable {genesis : String} {n : Stable}

/-- The node leads a call to a state with the tables of a chain; the blocks that are unwound on the
way are told. -/
structure Goes (n : Stable) (genesis : String) (x : State) (unwound : List (Int × Option String))
    (chain : List Block) (pc : Option Pc) (y : State) : Prop where
  path : ∃ path, run.Leads (n.next genesis) x path y ∧ path.filterMap unwinding = unwound
  tables : y.tables = replay chain
  proc : y.proc = pc
  raised : y.raised = x.raised

namespace Goes

variable {x y z : State} {unwound unwound' : List (Int × Option String)} {chain chain' : List Block}
  {pc pc' : Option Pc}

theorem refl (x : State) (htables : x.tables = replay chain) : Goes n genesis x [] chain x.proc x :=
  ⟨⟨[], .refl x, rfl⟩, htables, rfl, rfl⟩

theorem trans (h : Goes n genesis x unwound chain pc y) (h' : Goes n genesis y unwound' chain' pc' z) :
    Goes n genesis x (unwound ++ unwound') chain' pc' z := by
  obtain ⟨path, hpath, rfl⟩ := h.path
  obtain ⟨path', hpath', rfl⟩ := h'.path
  exact ⟨⟨path ++ path', hpath.trans hpath', List.filterMap_append⟩, h'.tables, h'.proc,
    h'.raised.trans h.raised⟩

/-- A step that unwinds no block comes first. -/
theorem head (hstep : n.next genesis x = some y) (hkeep : unwinding x = none) (hraised : y.raised = x.raised)
    (h : Goes n genesis y unwound chain pc z) : Goes n genesis x unwound chain pc z := by
  obtain ⟨path, hpath, rfl⟩ := h.path
  exact ⟨⟨x :: path, .head hstep hpath, List.filterMap_cons_none hkeep⟩, h.tables, h.proc,
    h.raised.trans hraised⟩

end Goes

/-- What `sync_once` has read of the node. -/
structure Polled (n : Stable) (batch : Nat) (v : Vars) : Prop where
  batch : v.batch = batch
  max_blocks : v.max_blocks = none
  node_height : v.node_height = n.info.blocks
  node_hash : v.node_hash = n.info.bestblockhash
  repolls : v.repolls = 0

/-- The height and the hash of a block, as of the tip. -/
def Block.tip (b : Block) : Int × Option String := (b.height, some b.hash)

variable {node : Node genesis} {chain pre rest : List Block} {batch : Nat} {v : Vars} {x : State}

theorem nextUnwind_eq {t : Tables} {fork : Int} {k : Nat} {after : Return} (hafter : after ≠ .unwind) :
    nextUnwind t fork k after = some (if t.tip.1 ≤ fork then .reorgDone k after else .unwind fork k after) := by
  unfold nextUnwind
  split
  · cases after with
    | unwind => exact absurd rfl hafter
    | reorg | level | link => rfl
  · rfl

/-- The loop of `unwind_to`. -/
theorem goes_unwind (h : node.Indexed (pre ++ rest)) {after : Return} (hafter : after ≠ .unwind) {k : Nat}
    (htables : x.tables = replay (pre ++ rest))
    (hproc : x.proc = nextUnwind x.tables ((pre.length : Int) - 1) k after) :
    ∃ y, Goes n genesis x (rest.reverse.map Block.tip) pre (some (.reorgDone (k + rest.length) after)) y := by
  rw [nextUnwind_eq hafter] at hproc
  induction rest using List.reverseRecOn generalizing x k with
  | nil =>
    rw [List.append_nil] at h htables
    rw [htables, tip_replay h.valid, if_pos (le_refl _)] at hproc
    exact ⟨x, hproc ▸ Goes.refl x htables⟩
  | append_singleton rest b ih =>
    rw [← List.append_assoc] at h htables
    have htip := tip_replay_append h.valid
    have hheight := h.valid.height_last
    rw [htables, htip, if_neg (by rw [hheight, List.length_append]; omega)] at hproc
    have hstep : n.next genesis x = some { x with
        tables := replay (pre ++ rest)
        proc := nextUnwind (replay (pre ++ rest)) ((pre.length : Int) - 1) (k + 1) after } := by
      rw [Stable.next, hproc]
      simp only [Option.bind_eq_bind, Option.bind_some, Stable.event, step, hproc, commit, htables, htip,
        unwindLocked_replay h.valid]
    rw [nextUnwind_eq hafter] at hstep
    obtain ⟨y, hgoes⟩ := ih h.init (x := { x with
      tables := replay (pre ++ rest)
      proc := some (if (replay (pre ++ rest)).tip.1 ≤ (pre.length : Int) - 1 then .reorgDone (k + 1) after
        else .unwind ((pre.length : Int) - 1) (k + 1) after) }) rfl rfl
    obtain ⟨path, hpath, hunwound⟩ := hgoes.path
    refine ⟨y, ⟨x :: path, .head hstep hpath, ?_⟩, hgoes.tables, ?_, hgoes.raised⟩
    · have hblock : unwinding x = some b.tip := by rw [unwinding, hproc, htables, htip, Block.tip]
      rw [List.filterMap_cons_some hblock, hunwound, List.reverse_append]
      rfl
    · rw [hgoes.proc, List.length_append, List.length_singleton, Nat.add_assoc, Nat.add_comm 1]

/-- A call of `handle_reorg`, up to where it returns to. -/
theorem goes_reorg (h : node.Indexed chain) (hfull : node.Indexed n.chain) (hne : n.chain ≠ [])
    (hchain : chain = pre ++ rest) (hcommon : ∀ k, Common chain n.chain k ↔ k < pre.length)
    {after : Return} (hafter : after ≠ .unwind) (htables : x.tables = replay chain) {node_height : Int}
    (hheight : (pre.length : Int) - 1 ≤ node_height)
    (hproc : x.proc = some (startReorg x.tables node_height after)) :
    ∃ y, Goes n genesis x (rest.reverse.map Block.tip) pre (afterReorg (replay pre) rest.length after) y := by
  obtain ⟨path, hpath, hquiet⟩ := leads_fork h hfull hne hchain hcommon htables node_height after
  rw [show max (-1) (min ((pre.length : Int) - 1) node_height) = (pre.length : Int) - 1 by omega] at hpath
  have hx : x.goto (startReorg x.tables node_height after) = x := by rw [State.goto, ← hproc]
  rw [hx] at hpath
  -- the status and the log, then the blocks, then the log again
  let started : State := { x with
    proc := nextUnwind x.tables ((pre.length : Int) - 1) 0 after, sync := { x.sync with status := .reorg } }
  have hlogged : Goes n genesis (x.goto (.reorgStatus ((pre.length : Int) - 1) after)) [] chain
      started.proc started :=
    .head rfl rfl rfl (.head rfl rfl rfl (.refl started htables))
  obtain ⟨y, hunwound⟩ := goes_unwind (n := n) (x := started) (k := 0) (hchain ▸ h) hafter (hchain ▸ htables) rfl
  rw [Nat.zero_add] at hunwound
  have hdone : Goes n genesis y [] pre (afterReorg (replay pre) rest.length after)
      { y with proc := afterReorg y.tables rest.length after } := by
    refine .head (y := { y with proc := afterReorg y.tables rest.length after }) ?_
      (by rw [unwinding, hunwound.proc]) rfl ?_
    · rw [Stable.next, hunwound.proc]
      simp only [Option.bind_eq_bind, Option.bind_some, Stable.event, step, hunwound.proc, commit]
    · exact ⟨⟨[], .refl _, rfl⟩, hunwound.tables, by rw [hunwound.tables], rfl⟩
  have hsearch : Goes n genesis x [] chain (some (.reorgStatus ((pre.length : Int) - 1) after))
      (x.goto (.reorgStatus ((pre.length : Int) - 1) after)) := ⟨⟨path, hpath, hquiet⟩, htables, rfl, rfl⟩
  have hall := ((hsearch.trans hlogged).trans hunwound).trans hdone
  simp only [List.nil_append, List.append_nil] at hall
  exact ⟨_, hall⟩

/-- The blocks that a call holds are applied. -/
theorem goes_apply {bs : List Block} (h : node.Indexed (pre ++ bs)) (hpolled : Polled n batch v)
    (htables : x.tables = replay pre) (hproc : x.proc = some (nextBlock x.tables v (bs.map some))) :
    ∃ y v', Polled n batch v' ∧ Goes n genesis x [] (pre ++ bs) (some (loop (replay (pre ++ bs)) v')) y := by
  induction bs generalizing x pre v with
  | nil =>
    rw [List.append_nil]
    rw [htables] at hproc
    exact ⟨x, v, hpolled, ⟨⟨[], .refl x, rfl⟩, htables, hproc, rfl⟩⟩
  | cons b bs ih =>
    rw [← List.singleton_append, ← List.append_assoc] at h ⊢
    have hfirst : node.Indexed (pre ++ [b]) :=
      ⟨h.valid.of_append, fun a ha => h.has a (List.mem_append_left _ ha)⟩
    have happly := applyLocked_replay hfirst.valid hfirst.hash_not_mem
    let v' := { v with applied := v.applied + 1 }
    have hstep : n.next genesis x = some { x with
        tables := replay (pre ++ [b])
        proc := some (nextBlock (replay (pre ++ [b])) v' (bs.map some)) } := by
      rw [Stable.next, hproc]
      simp only [Option.bind_eq_bind, Option.bind_some, Stable.event, step, hproc, List.map_cons, nextBlock,
        commit, htables, happly]
      rfl
    obtain ⟨y, w, hw, hgoes⟩ := ih h (v := v') (x := { x with
        tables := replay (pre ++ [b])
        proc := some (nextBlock (replay (pre ++ [b])) v' (bs.map some)) })
      ⟨hpolled.batch, hpolled.max_blocks, hpolled.node_height, hpolled.node_hash, hpolled.repolls⟩ rfl rfl
    exact ⟨y, w, hw, hgoes.head hstep (by rw [unwinding, hproc]; rfl) rfl⟩

/-! ### Fetching -/

theorem hashOn_add {full : List Block} {i : Nat} (hi : pre.length + i < full.length) :
    hashOn full ((pre.length : Int) + i) = some (full[pre.length + i]).hash := by
  rw [hashOn, if_neg (by omega), show ((pre.length : Int) + i).toNat = pre.length + i by omega,
    List.getElem?_eq_getElem hi]
  rfl

theorem hashes_eq {full rest : List Block} (hfull : full = pre ++ rest) {m : Nat} (hm : m ≤ rest.length) :
    ((List.range m).map fun i : Nat => hashOn full ((pre.length : Int) + i)) =
      (rest.take m).map fun b => some b.hash := by
  refine List.ext_getElem (by simp [hm]) fun i hi hi' => ?_
  have him : i < m := by simpa using hi
  have hlt : pre.length + i < full.length := by
    rw [hfull, List.length_append]
    omega
  simp only [List.getElem_map, List.getElem_range, hashOn_add hlt, List.getElem_take]
  simp [hfull]

theorem find_hash (hfull : node.Indexed chain) {b : Block} (hb : b ∈ chain) :
    chain.find? (·.hash = b.hash) = some b := by
  cases hfind : chain.find? (·.hash = b.hash) with
  | none => simpa using List.find?_eq_none.mp hfind b hb
  | some b' =>
    have hhash : b'.hash = b.hash := by simpa using List.find?_some hfind
    rw [Node.eq_of_hash_eq (hfull.has b' (List.mem_of_find?_eq_some hfind)) (hfull.has b hb) hhash]

/-- The next blocks are fetched. -/
theorem goes_fetch (hfull : node.Indexed n.chain) {rest' : List Block} (hchain : n.chain = pre ++ rest')
    {m : Nat} (hm : m ≤ rest'.length) (htables : x.tables = replay chain)
    (hproc : x.proc = some (.hashes v pre.length ((pre.length : Int) + m - 1))) :
    Goes n genesis x [] chain (some (nextBlock x.tables v ((rest'.take m).map some)))
      (x.goto (nextBlock x.tables v ((rest'.take m).map some))) := by
  have hcount : ((pre.length : Int) + m - 1 + 1 - pre.length).toNat = m := by omega
  have hlen : (((rest'.take m).map fun b => some b.hash).length : Int) =
      (pre.length : Int) + m - 1 + 1 - pre.length := by
    rw [List.length_map, List.length_take]
    omega
  have hsome : (none : Option String) ∉ (rest'.take m).map fun b => some b.hash := by
    intro hnone
    obtain ⟨b, -, hb⟩ := List.mem_map.mp hnone
    cases hb
  have hblocks : ((rest'.take m).map Block.hash).map (fun hash => n.chain.find? (·.hash = hash)) =
      (rest'.take m).map some := by
    rw [List.map_map]
    refine List.map_congr_left fun b hb => ?_
    have hmem : b ∈ n.chain := by
      rw [hchain]
      exact List.mem_append_right _ (List.mem_of_mem_take hb)
    exact find_hash hfull hmem
  have hstep : n.next genesis x = some (x.goto (.blocks v ((rest'.take m).map Block.hash))) := by
    rw [Stable.next, hproc]
    simp only [Option.bind_eq_bind, Option.bind_some, Stable.event, step, hproc, answer, hcount,
      hashes_eq hchain hm, hlen, ne_eq, not_true_eq_false, if_false, hsome]
    rw [List.filterMap_map]
    simp
  have hstep' : n.next genesis (x.goto (.blocks v ((rest'.take m).map Block.hash))) =
      some (x.goto (nextBlock x.tables v ((rest'.take m).map some))) := by
    rw [Stable.next]
    simp only [State.goto, Option.bind_eq_bind, Option.bind_some, Stable.event, step, answer, hblocks]
    simp
  exact .head hstep (by rw [unwinding, hproc]) rfl
    (.head hstep' rfl rfl ⟨⟨[], .refl _, rfl⟩, htables, rfl, rfl⟩)

/-! ### The loop -/

theorem Node.Indexed.of_append (h : node.Indexed (chain ++ rest)) : node.Indexed chain :=
  ⟨h.valid.of_append, fun b hb => h.has b (List.mem_append_left _ hb)⟩

theorem info_blocks (hne : n.chain ≠ []) : (n.info.blocks : Int) = (n.chain.length : Int) - 1 := by
  have := List.length_pos_iff.mpr hne
  change ((n.chain.length - 1 : Nat) : Int) = _
  omega

theorem info_hash (hne : n.chain ≠ []) :
    some n.info.bestblockhash = n.chain.getLast?.map Block.hash := by
  rw [Stable.info, List.getLast?_eq_some_getLast hne]
  rfl

theorem loop_eq (h : node.Indexed chain) (hfull : node.Indexed n.chain) (hne : n.chain ≠ [])
    (hpolled : Polled n batch v) :
    loop (replay chain) v =
      if chain = n.chain then .finish v .tip
      else if n.chain.length ≤ chain.length then
        startReorg (replay chain) ((n.chain.length : Int) - 1) (.level v)
      else .hashes v chain.length ((chain.length : Int) + min batch (n.chain.length - chain.length) - 1) := by
  have hblocks := info_blocks hne
  have htip := tip_replay h.valid
  have hlevel : ((replay chain).tip = ((v.node_height : Int), some v.node_hash)) ↔ chain = n.chain := by
    rw [htip, hpolled.node_height, hpolled.node_hash, hblocks, info_hash hne, Prod.mk.injEq]
    constructor
    · rintro ⟨hlen, hlast⟩
      exact eq_of_last_hash_eq h.valid hfull.valid h.has hfull.has (by omega) hlast
    · rintro rfl
      exact ⟨rfl, rfl⟩
  rw [loop]
  by_cases hsame : chain = n.chain
  · rw [if_pos (hlevel.mpr hsame), if_pos hsame]
  · rw [if_neg (mt hlevel.mp hsame), if_neg hsame]
    simp only [hpolled.max_blocks, hpolled.repolls, Option.any_none, Bool.false_eq_true, if_false,
      Nat.not_lt_zero, hpolled.node_height, hpolled.batch, hblocks, htip]
    have hpos := List.length_pos_iff.mpr hne
    by_cases hlong : n.chain.length ≤ chain.length
    · rw [if_pos hlong, if_pos (by omega)]
    · rw [if_neg hlong, if_neg (by omega)]
      congr 1
      · omega
      · omega

/-- The index follows the node when it has part of its chain. -/
theorem goes_up (hbatch : 0 < batch) (hfull : node.Indexed n.chain) (hne : n.chain ≠ []) {rest' : List Block}
    (hchain : n.chain = pre ++ rest') (hpolled : Polled n batch v) (htables : x.tables = replay pre)
    (hproc : x.proc = some (loop x.tables v)) :
    ∃ y v', Goes n genesis x [] n.chain (some (.finish v' .tip)) y := by
  induction hm : rest'.length using Nat.strongRecOn generalizing x pre rest' v with
  | ind k ih =>
    have hpre : node.Indexed pre := (hchain ▸ hfull).of_append
    have hlen : n.chain.length = pre.length + rest'.length := by rw [hchain, List.length_append]
    rw [htables, loop_eq hpre hfull hne hpolled] at hproc
    by_cases hsame : pre = n.chain
    · rw [if_pos hsame] at hproc
      exact ⟨x, v, ⟨[], .refl x, rfl⟩, hsame ▸ htables, hproc, rfl⟩
    · have hpos : 0 < rest'.length := by
        refine List.length_pos_iff.mpr fun hnil => hsame ?_
        rw [hchain, hnil, List.append_nil]
      rw [if_neg hsame, if_neg (by omega), hlen, Nat.add_sub_cancel_left] at hproc
      have hfetch := goes_fetch (v := v) hfull hchain (Nat.min_le_right batch rest'.length) htables hproc
      have hdrop : n.chain = (pre ++ rest'.take (min batch rest'.length)) ++ rest'.drop (min batch rest'.length) := by
        rw [List.append_assoc, List.take_append_drop, hchain]
      obtain ⟨y, w, hw, happly⟩ := goes_apply (n := n) (hdrop ▸ hfull).of_append hpolled
        (x := x.goto (nextBlock x.tables v ((rest'.take (min batch rest'.length)).map some))) htables rfl
      obtain ⟨z, w', hfinish⟩ := ih _ (by rw [List.length_drop]; omega) hdrop hw happly.tables
        (happly.tables ▸ happly.proc) rfl
      exact ⟨z, w', (hfetch.trans happly).trans hfinish⟩

/-- The poll at the beginning. -/
theorem goes_poll (htables : x.tables = replay chain) (hproc : x.proc = some (.info { batch := batch, max_blocks := none })) :
    ∃ y v, Polled n batch v ∧ Goes n genesis x [] chain (some (loop (replay chain) v)) y := by
  have hstep : n.next genesis x =
      some (x.goto (.peers { batch := batch, max_blocks := none } n.info x.now)) := by
    rw [Stable.next, hproc]
    simp only [Option.bind_eq_bind, Option.bind_some, Stable.event, step, hproc, answer]
  refine ⟨_, { batch := batch, max_blocks := none, node_height := n.info.blocks, node_hash := n.info.bestblockhash },
    ⟨rfl, rfl, rfl, rfl, rfl⟩, .head hstep (by rw [unwinding, hproc]) rfl
    (.head rfl rfl rfl (.head rfl rfl rfl ⟨⟨[], .refl _, rfl⟩, htables, ?_, rfl⟩))⟩
  rw [← htables]
  rfl

/-- The index goes back to what it has in common with the node, if it does not wait for blocks that
are not asked for. -/
theorem goes_common (h : node.Indexed chain) (hfull : node.Indexed n.chain) (hne : n.chain ≠ [])
    (hchain : chain = pre ++ rest) (hcommon : ∀ k, Common chain n.chain k ↔ k < pre.length)
    (hbatch : 0 < batch ∨ n.chain.length ≤ chain.length) (hpolled : Polled n batch v)
    (htables : x.tables = replay chain) (hproc : x.proc = some (loop (replay chain) v)) :
    ∃ y v', Polled n batch v' ∧
      Goes n genesis x (rest.reverse.map Block.tip) pre (some (loop (replay pre) v')) y := by
  have hlen : chain.length = pre.length + rest.length := by rw [hchain, List.length_append]
  by_cases hrest : rest = []
  · have hpre : chain = pre := by rw [hchain, hrest, List.append_nil]
    rw [hrest, ← hpre]
    exact ⟨x, v, hpolled, ⟨⟨[], .refl x, rfl⟩, htables, hproc, rfl⟩⟩
  have hpos : 0 < rest.length := List.length_pos_iff.mpr hrest
  have hdiff : chain ≠ n.chain := by
    intro heq
    have hlt : pre.length < chain.length := by omega
    have hget := List.getElem?_eq_getElem hlt
    exact lt_irrefl _ ((hcommon pre.length).mp ⟨_, hget, _, heq ▸ hget, rfl⟩)
  have hshort : pre.length ≤ n.chain.length := by
    by_contra hlong
    obtain ⟨-, -, b, hb, -⟩ := (hcommon n.chain.length).mpr (by omega)
    simp at hb
  rw [loop_eq h hfull hne hpolled, if_neg hdiff] at hproc
  by_cases hlong : n.chain.length ≤ chain.length
  · rw [if_pos hlong, ← htables] at hproc
    obtain ⟨y, hgoes⟩ := goes_reorg h hfull hne hchain hcommon (show Return.level v ≠ .unwind by simp) htables
      (by omega) hproc
    refine ⟨y, v, hpolled, ?_⟩
    simpa only [afterReorg, if_neg hpos.ne'] using hgoes
  · rw [if_neg hlong] at hproc
    have hsplit : n.chain = n.chain.take chain.length ++ n.chain.drop chain.length :=
      (List.take_append_drop _ _).symm
    have htake : (n.chain.take chain.length).length = chain.length := by
      rw [List.length_take]
      omega
    have hfetch := goes_fetch (x := x) (v := v) (m := min batch (n.chain.length - chain.length)) hfull hsplit
      (by rw [List.length_drop]; omega) htables (by rw [htake]; exact hproc)
    -- the first block does not link, because the chains part below it
    obtain ⟨b, bs, hbs⟩ : ∃ b bs,
        (n.chain.drop chain.length).take (min batch (n.chain.length - chain.length)) = b :: bs := by
      refine List.exists_cons_of_ne_nil (List.ne_nil_of_length_pos ?_)
      rw [List.length_take, List.length_drop]
      omega
    have hb : n.chain[chain.length]? = some b := by
      have hm : 0 < min batch (n.chain.length - chain.length) := by omega
      have hget := congrArg (·[0]?) hbs
      simpa only [List.getElem?_take_of_lt hm, List.getElem?_drop, Nat.add_zero, List.getElem?_cons_zero]
        using hget
    have hlink : applyLocked genesis (replay chain) b = .error .chainLink := by
      obtain hlink | ⟨happend, -⟩ := h.applyLocked (hfull.has b (List.mem_of_getElem? hb))
      · exact hlink
      · have hsame := happend.take_eq hfull (k := chain.length)
          ⟨b, by simp, b, hb, rfl⟩
        have hk : Common chain n.chain pre.length := by
          have hlt : pre.length < chain.length := by omega
          have hget := congrArg (·[pre.length]?) hsame
          simp only [List.getElem?_take, show pre.length < chain.length + 1 by omega, if_true,
            List.getElem?_append_left hlt] at hget
          have hmem := List.getElem?_eq_getElem hlt
          exact ⟨_, hmem, _, hget ▸ hmem, rfl⟩
        exact absurd ((hcommon _).mp hk) (lt_irrefl _)
    let y := x.goto (nextBlock x.tables v
      (((n.chain.drop chain.length).take (min batch (n.chain.length - chain.length))).map some))
    have hyproc : y.proc = some (.apply v b (bs.map some)) := by
      simp only [y, State.goto, hbs, List.map_cons, nextBlock]
    have hstep : n.next genesis y = some (y.goto (startReorg y.tables v.node_height (.link v))) := by
      rw [Stable.next, hyproc]
      have hytables : y.tables = replay chain := htables
      simp only [Option.bind_eq_bind, Option.bind_some, Stable.event, step, hyproc, commit, hytables, hlink]
    obtain ⟨z, hgoes⟩ := goes_reorg (x := y.goto (startReorg y.tables v.node_height (.link v))) h hfull hne
      hchain hcommon (show Return.link v ≠ .unwind by simp) htables
      (by rw [hpolled.node_height, info_blocks hne]; omega) rfl
    exact ⟨z, v, hpolled, hfetch.trans (.head hstep (by rw [unwinding, hyproc]) rfl hgoes)⟩

/-- The end of the call. -/
theorem goes_finish (htables : x.tables = replay chain) (hproc : x.proc = some (.finish v .tip)) :
    ∃ y, Goes n genesis x [] chain none y := by
  let y : State := { x with
    proc := none
    tables := { x.tables with indexed_height := x.tables.tip.1, indexed_hash := x.tables.tip.2 }
    sync := { x.sync with status :=
      if x.tables.tip = ((v.node_height : Int), some v.node_hash) then .ok else .syncing } }
  refine ⟨y, .head (y := y) ?_ (by rw [unwinding, hproc]) rfl ⟨⟨[], .refl _, rfl⟩, ?_, rfl, rfl⟩⟩
  · rw [Stable.next, hproc]
    simp only [Option.bind_eq_bind, Option.bind_some, Stable.event, step, hproc, commit]
    rfl
  · simp only [y, htables]
    rfl

theorem pre_eq_of_prefixed (hchain : n.chain = pre ++ rest) (hprefixed : n.chain <+: chain)
    (hcommon : ∀ k, Common chain n.chain k ↔ k < pre.length) : pre = n.chain := by
  obtain ⟨more, rfl⟩ := hprefixed
  have hlen : n.chain.length ≤ pre.length := by
    by_contra hlt
    have hget := List.getElem?_eq_getElem (not_le.mp hlt)
    have hcommon' := (hcommon pre.length).mp
      ⟨_, (List.getElem?_append_left (not_le.mp hlt)).trans hget, _, hget, rfl⟩
    exact lt_irrefl _ hcommon'
  have hnil : rest = [] := by
    have := congrArg List.length hchain
    rw [List.length_append] at this
    exact List.eq_nil_of_length_eq_zero (by omega)
  rw [hchain, hnil, List.append_nil]

/-- The call returns with the chain of the node. -/
theorem goes_sync (h : node.Indexed chain) (hfull : node.Indexed n.chain) (hne : n.chain ≠ [])
    (hchain : chain = pre ++ rest) {rest' : List Block} (hchain' : n.chain = pre ++ rest')
    (hcommon : ∀ k, Common chain n.chain k ↔ k < pre.length) (hbatch : 0 < batch ∨ n.chain <+: chain)
    (htables : x.tables = replay chain) (hproc : x.proc = some (.info { batch := batch, max_blocks := none })) :
    ∃ y, Goes n genesis x (rest.reverse.map Block.tip) n.chain none y := by
  obtain ⟨x₁, v₁, hpolled₁, hpoll⟩ : ∃ y v, Polled n batch v ∧
      Goes n genesis x [] chain (some (loop (replay chain) v)) y := goes_poll htables hproc
  obtain ⟨x₂, v₂, hpolled₂, hback⟩ := goes_common h hfull hne hchain hcommon
    (hbatch.imp_right List.IsPrefix.length_le) hpolled₁ hpoll.tables hpoll.proc
  obtain ⟨x₃, v₃, hup⟩ : ∃ x₃ v₃, Goes n genesis x₂ [] n.chain (some (.finish v₃ .tip)) x₃ := by
    rcases hbatch with hbatch | hprefixed
    · exact goes_up hbatch hfull hne hchain' hpolled₂ hback.tables (hback.tables ▸ hback.proc)
    · have hpre := pre_eq_of_prefixed hchain' hprefixed hcommon
      refine ⟨x₂, v₂, ⟨[], .refl x₂, rfl⟩, hpre ▸ hback.tables, ?_, rfl⟩
      rw [hback.proc, hpre, loop_eq hfull hfull hne hpolled₂, if_pos rfl]
  obtain ⟨x₄, hfinish⟩ : ∃ y, Goes n genesis x₃ [] n.chain none y := goes_finish hup.tables hup.proc
  have hall := ((hpoll.trans hback).trans hup).trans hfinish
  simp only [List.nil_append, List.append_nil] at hall
  exact ⟨x₄, hall⟩

/-! ### Batches of no blocks -/

/-- The call asks for no blocks, again and again. -/
def Spins (n : Stable) (genesis : String) (x : State) : Prop :=
  ∃ (node : Node genesis) (chain : List Block) (v : Vars), node.Indexed chain ∧ node.Indexed n.chain ∧
    n.chain ≠ [] ∧ chain.length < n.chain.length ∧ Polled n 0 v ∧ x.tables = replay chain ∧
    (x.proc = some (.hashes v chain.length ((chain.length : Int) - 1)) ∨ x.proc = some (.blocks v []))

theorem loop_spins (h : node.Indexed chain) (hfull : node.Indexed n.chain) (hne : n.chain ≠ [])
    (hshort : chain.length < n.chain.length) (hpolled : Polled n 0 v) :
    loop (replay chain) v = .hashes v chain.length ((chain.length : Int) - 1) := by
  have hdiff : chain ≠ n.chain := fun heq => lt_irrefl _ (heq ▸ hshort)
  rw [loop_eq h hfull hne hpolled, if_neg hdiff, if_neg (by omega)]
  simp

theorem Spins.next {y : State} (hx : Spins n genesis x) (hstep : n.next genesis x = some y) :
    Spins n genesis y := by
  obtain ⟨node, chain, v, h, hfull, hne, hshort, hpolled, htables, hproc | hproc⟩ := hx
  · refine ⟨node, chain, v, h, hfull, hne, hshort, hpolled, ?_⟩
    rw [Stable.next, hproc] at hstep
    simp only [Option.bind_eq_bind, Option.bind_some, Stable.event, step, hproc, answer] at hstep
    simp at hstep
    obtain rfl := hstep
    exact ⟨htables, .inr rfl⟩
  · refine ⟨node, chain, v, h, hfull, hne, hshort, hpolled, ?_⟩
    rw [Stable.next, hproc] at hstep
    simp only [Option.bind_eq_bind, Option.bind_some, Stable.event, step, hproc, answer, List.map_nil,
      List.length_nil, ne_eq, not_true_eq_false, if_false, Option.some.injEq] at hstep
    obtain rfl := hstep
    refine ⟨htables, .inl ?_⟩
    rw [State.goto, nextBlock, htables, loop_spins h hfull hne hshort hpolled]

/-- A call for batches of no blocks does not return when the node has more of them. -/
theorem never_returns (h : node.Indexed chain) (hfull : node.Indexed n.chain) (hne : n.chain ≠ [])
    (hmore : ¬n.chain <+: chain) (htables : x.tables = replay chain)
    (hproc : x.proc = some (.info { batch := 0, max_blocks := none })) :
    ¬∃ path t, run.Leads (n.next genesis) x path t ∧ t.proc = none := by
  obtain ⟨pre, rest, rest', hchain, hchain', hcommon⟩ := exists_common h hfull
  obtain ⟨x₁, v₁, hpolled₁, hpoll⟩ : ∃ y v, Polled n 0 v ∧
      Goes n genesis x [] chain (some (loop (replay chain) v)) y := goes_poll htables hproc
  have hspins : ∃ path y, run.Leads (n.next genesis) x path y ∧ Spins n genesis y := by
    obtain ⟨path, hpath, -⟩ := hpoll.path
    by_cases hlong : n.chain.length ≤ chain.length
    · obtain ⟨x₂, v₂, hpolled₂, hback⟩ := goes_common h hfull hne hchain hcommon (.inr hlong) hpolled₁
        hpoll.tables hpoll.proc
      obtain ⟨path', hpath', -⟩ := hback.path
      have hshort : pre.length < n.chain.length := by
        rw [hchain', List.length_append, Nat.lt_add_right_iff_pos, List.length_pos_iff]
        rintro rfl
        rw [List.append_nil] at hchain'
        exact hmore ⟨rest, by rw [hchain', hchain]⟩
      have hpre : node.Indexed pre := (hchain ▸ h).of_append
      exact ⟨_, x₂, hpath.trans hpath', node, pre, v₂, hpre, hfull, hne, hshort, hpolled₂, hback.tables,
        .inl (hback.proc.trans (congrArg some (loop_spins hpre hfull hne hshort hpolled₂)))⟩
    · exact ⟨_, x₁, hpath, node, chain, v₁, h, hfull, hne, by omega, hpolled₁, hpoll.tables,
        .inl (hpoll.proc.trans (congrArg some (loop_spins h hfull hne (by omega) hpolled₁)))⟩
  rintro ⟨path, t, hpath, hend⟩
  obtain ⟨path', y, hpath', hy⟩ := hspins
  obtain ⟨path'', hrest, -⟩ := hpath.rest (by rw [Stable.next, hend]; rfl) hpath'
  obtain ⟨_, _, _, _, _, _, _, _, _, hspin⟩ := hrest.invariant (fun _ _ => Spins.next) hy
  rw [hend] at hspin
  rcases hspin with hspin | hspin <;> cases hspin

end

/-- Against a node that stays on its chain, `find_fork` returns the highest common height, and
`sync_once` returns, with the chain of the node and the blocks above the fork unwound once, exactly
when its batches have blocks or the index has the whole chain. -/
theorem sync_follows_stable_node {genesis : String} (node : Node genesis) (n : Stable)
    (hn : n.chain ∈ node.chains) (hne : n.chain ≠ []) {chain : List Block} (h : node.Indexed chain)
    {s : State} (htables : s.tables = replay chain) :
    (∀ (node_height : Int) (after : Return), ∃ path fork,
      run.Leads (n.next genesis) (s.goto (startReorg s.tables node_height after)) path
        (s.goto (.reorgStatus fork after)) ∧ IsFork chain n.chain node_height fork) ∧
    ∀ (batch : Nat) (s' : State), step genesis s (.syncOnce batch none) = some s' →
      ((∃ path t, run.Leads (n.next genesis) s' path t ∧ t.proc = none) ↔
        0 < batch ∨ n.chain <+: chain) ∧
      ∀ path t, run.Leads (n.next genesis) s' path t → t.proc = none →
        t.tables = replay n.chain ∧ t.raised = s.raised ∧
        ∃ fork, IsFork chain n.chain ((n.chain.length : Int) - 1) fork ∧
          path.filterMap unwinding = (chain.drop (fork + 1).toNat).reverse.map Block.tip := by
  have hfull : node.Indexed n.chain := ⟨node.valid _ hn, fun b hb => ⟨_, hn, hb⟩⟩
  obtain ⟨pre, rest, rest', hchain, hchain', hcommon⟩ := exists_common h hfull
  refine ⟨fun node_height after => ?_, fun batch s' hcall => ?_⟩
  · obtain ⟨path, hpath, -⟩ := leads_fork h hfull hne hchain hcommon htables node_height after
    exact ⟨path, _, hpath, isFork_common hcommon node_height⟩
  have hs' : s' = s.goto (.info { batch := batch, max_blocks := none }) := by
    simp only [step, Option.bind_eq_bind, Option.bind_eq_some_iff] at hcall
    obtain ⟨-, -, hcall⟩ := hcall
    exact (Option.some.inj hcall).symm
  have hreturns : 0 < batch ∨ n.chain <+: chain →
      ∃ y, Goes n genesis s' (rest.reverse.map Block.tip) n.chain none y := fun hbatch =>
    goes_sync h hfull hne hchain hchain' hcommon hbatch (hs' ▸ htables) (hs' ▸ rfl)
  have hiff : (∃ path t, run.Leads (n.next genesis) s' path t ∧ t.proc = none) ↔
      0 < batch ∨ n.chain <+: chain := by
    refine ⟨fun hpath => ?_, fun hbatch => ?_⟩
    · by_contra hneither
      rw [not_or, Nat.not_lt, Nat.le_zero] at hneither
      obtain ⟨rfl, hmore⟩ := hneither
      exact never_returns h hfull hne hmore (hs' ▸ htables) (hs' ▸ rfl) hpath
    · obtain ⟨y, hgoes⟩ := hreturns hbatch
      obtain ⟨path, hpath, -⟩ := hgoes.path
      exact ⟨path, y, hpath, hgoes.proc⟩
  refine ⟨hiff, fun path t hpath hend => ?_⟩
  obtain ⟨y, hgoes⟩ := hreturns (hiff.mp ⟨path, t, hpath, hend⟩)
  obtain ⟨path', hpath', hunwound⟩ := hgoes.path
  have hstops : ∀ {x : State}, x.proc = none → n.next genesis x = none := fun hx => by
    rw [Stable.next, hx]
    rfl
  -- the one path of the call is the one that was found
  obtain ⟨path'', hrest, hsplit⟩ := hpath'.rest (hstops hgoes.proc) hpath
  cases hrest with
  | head hstep => simp [hstops hend] at hstep
  | refl =>
    rw [List.append_nil] at hsplit
    subst hsplit
    have hraised : s'.raised = s.raised := by rw [hs', State.goto]
    refine ⟨hgoes.tables, hgoes.raised.trans hraised, _, isFork_common hcommon _, ?_⟩
    have hle : pre.length ≤ n.chain.length := by rw [hchain', List.length_append]; omega
    rw [hunwound, show (max (-1) (min ((pre.length : Int) - 1) ((n.chain.length : Int) - 1)) + 1).toNat =
      pre.length by omega, hchain, List.drop_left]

theorem sync_follows_stable_node_second :
    ∃ path t, run.Leads (Stable.next ⟨secondBranch, false, some 3⟩ "g")
        (State.goto { tables := replay firstBranch } (.info { batch := 10, max_blocks := none })) path t ∧
      t.proc = none :=
  ((sync_follows_stable_node twoBranches ⟨secondBranch, false, some 3⟩ (.inr rfl) (by decide)
    (show twoBranches.Indexed firstBranch from
      ⟨twoBranches.valid _ (.inl rfl), fun b hb => ⟨_, .inl rfl, hb⟩⟩)
    (s := { tables := replay firstBranch }) rfl).2 10 _ rfl).1.mpr (.inl (by decide))

/-- A call with `--batch 0` against a node that is ahead. -/
theorem sync_never_returns_without_batches :
    ¬∃ path t, run.Leads (Stable.next ⟨secondBranch, false, some 3⟩ "g")
        (State.goto { tables := replay firstBranch } (.info { batch := 0, max_blocks := none })) path t ∧
      t.proc = none :=
  never_returns
    (show twoBranches.Indexed firstBranch from
      ⟨twoBranches.valid _ (.inl rfl), fun b hb => ⟨_, .inl rfl, hb⟩⟩)
    ⟨twoBranches.valid _ (.inr rfl), fun b hb => ⟨_, .inr rfl, hb⟩⟩ (by decide) (by decide) rfl rfl

end pcoin.explorer
