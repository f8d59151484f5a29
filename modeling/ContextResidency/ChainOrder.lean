import ContextResidency.BlockRecords

/-! The order of chain-aware eviction. The victims are a front part of the ranked chains
laid out leaf first, so chains go whole but for the last one, which goes from its leaves.
Blocks that several live sessions lease are shared, so they go after every private one. -/
namespace ContextResidency

variable {F : Type} [Scalar F]

namespace AdaptiveValuePolicy

variable (horizonS : F) (priors : Dict String F) (now : F) (probe : Probe F)
  (candidates : List (BlockKey × Entry F))

def group (name : String) : List (BlockKey × Entry F) :=
  candidates.filter fun p => chainOf p.1 now probe = name

/-- What the chains are ranked by. -/
def rankOf (chain : List (BlockKey × Entry F)) : ℕ ×ₗ F :=
  toLex (sharedRank chain probe,chainDensity horizonS priors chain probe)

theorem ranked_sorted : (ranked horizonS priors now probe candidates).Pairwise fun c c' =>
    rankOf horizonS priors probe c ≤ rankOf horizonS priors probe c' := sortedBy_pairwise _ _

variable {now probe candidates}

omit [Scalar F] in
theorem mem_group [Scalar F] {name : String} {p : BlockKey × Entry F} :
    p ∈ group now probe candidates name ↔ p ∈ candidates ∧ chainOf p.1 now probe = name := by
  simp [group]

theorem group_mem_ranked {p : BlockKey × Entry F} (hp : p ∈ candidates) :
    group now probe candidates (chainOf p.1 now probe) ∈
      ranked horizonS priors now probe candidates := by
  have hflat : p ∈ (ranked horizonS priors now probe candidates).flatten :=
    ((sortedBy_perm _ _).flatten.trans (chains_perm now probe candidates)).mem_iff.mpr hp
  obtain ⟨chain,hchain,hmem⟩ := List.mem_flatten.mp hflat
  obtain ⟨⟨name,chain'⟩,hitem,rfl⟩ := List.mem_map.mp (mem_sortedBy.mp hchain)
  have hname := mem_chains now probe hitem p hmem
  have hget := Dict.get_foldl_push (fun p => chainOf p.1 now probe) id candidates Dict.empty name
  have hfound : (chains now probe candidates).get name = some chain' := Dict.get_eq_some.mpr hitem
  unfold chains at hfound
  simp only [id_eq] at hget
  rw [hfound] at hget
  have hgroup : chain' = group now probe candidates name := by simpa [group] using hget
  rw [hname,← hgroup]
  exact hchain

section Taken

variable {horizonS priors} {taken : List (BlockKey × Entry F)}
  (h : taken <+: (ranked horizonS priors now probe candidates).flatMap (leafFirst probe))
include h

theorem exists_ranked_cut {p : BlockKey × Entry F} (hp : p ∈ candidates) :
    ∃ whole last rest, Cut (leafFirst probe) (ranked horizonS priors now probe candidates) taken
      whole last rest := by
  refine exists_cut (fun _ _ => mem_sortedBy) ?_ ?_ h
  · exact List.ne_nil_of_mem (group_mem_ranked horizonS priors hp)
  · exact (ranked_pairwise horizonS priors now probe candidates).imp fun hc p hp hp' =>
      hc p hp p hp' rfl

/-- At most one chain is split. -/
theorem split_unique {name name' : String} {p q p' q' : BlockKey × Entry F}
    (hp : p ∈ group now probe candidates name) (hq : q ∈ group now probe candidates name)
    (hin : p ∈ taken) (hout : q ∉ taken) (hp' : p' ∈ group now probe candidates name')
    (hq' : q' ∈ group now probe candidates name') (hin' : p' ∈ taken) (hout' : q' ∉ taken) :
    name = name' := by
  obtain ⟨hmem,rfl⟩ := mem_group.mp hp
  obtain ⟨hmem',rfl⟩ := mem_group.mp hp'
  obtain ⟨whole,last,rest,hcut⟩ := exists_ranked_cut h hmem
  have hlast := hcut.eq_last (group_mem_ranked horizonS priors hmem) hp hin hq hout
  have hlast' := hcut.eq_last (group_mem_ranked horizonS priors hmem') hp' hin' hq' hout'
  rw [hlast,← hlast'] at hp
  exact (mem_group.mp hp).2

/-- A split chain keeps its blocks up to some depth. -/
theorem taken_of_deeper {name : String} {p q : BlockKey × Entry F}
    (hp : p ∈ group now probe candidates name) (hq : q ∈ group now probe candidates name)
    (hin : p ∈ taken) (hdeeper : depth p.1 probe < depth q.1 probe) : q ∈ taken := by
  by_contra hout
  obtain ⟨hmem,rfl⟩ := mem_group.mp hp
  obtain ⟨whole,last,rest,hcut⟩ := exists_ranked_cut h hmem
  have hlast := hcut.eq_last (group_mem_ranked horizonS priors hmem) hp hin hq hout
  obtain ⟨part,hpart,htaken⟩ := hcut.last
  rw [hlast] at hp hq
  apply hout
  apply (htaken q hq).mpr
  have hlt : OrderDual.toDual (depth q.1 probe) < OrderDual.toDual (depth p.1 probe) := hdeeper
  exact mem_initial_of_lt hpart ((htaken p hp).mp hin) hq hlt

/-- A chain that is taken from ranks no later than one that is not taken whole. -/
theorem rank_le {name name' : String} {p q : BlockKey × Entry F}
    (hp : p ∈ group now probe candidates name) (hq : q ∈ group now probe candidates name')
    (hin : p ∈ taken) (hout : q ∉ taken) :
    rankOf horizonS priors probe (group now probe candidates name) ≤
      rankOf horizonS priors probe (group now probe candidates name') := by
  obtain ⟨hmem,rfl⟩ := mem_group.mp hp
  obtain ⟨hmem',rfl⟩ := mem_group.mp hq
  obtain ⟨whole,last,rest,hcut⟩ := exists_ranked_cut h hmem
  have hbefore := hcut.before (ranked_sorted horizonS priors now probe candidates)
    (group_mem_ranked horizonS priors hmem) (group_mem_ranked horizonS priors hmem') hp hin hq hout
  cases hbefore with
  | inl hsame => rw [hsame]
  | inr hle => exact hle

end Taken

/-- What an eviction takes of the groups: all of each but for one, of that one its deepest
blocks, and nothing of a group before it has the groups that rank earlier. -/
structure ChainOrdered (horizonS : F) (priors : Dict String F) (now : F) (probe : Probe F)
    (candidates : List (BlockKey × Entry F)) (out : List BlockKey) : Prop where
  drawn : ∀ key ∈ out, ∃ p ∈ candidates, p.1 = key
  split : ∀ name name', ∀ p ∈ group now probe candidates name,
    ∀ q ∈ group now probe candidates name, p.1 ∈ out → q.1 ∉ out →
    ∀ p' ∈ group now probe candidates name', ∀ q' ∈ group now probe candidates name',
    p'.1 ∈ out → q'.1 ∉ out → name = name'
  deeper : ∀ name, ∀ p ∈ group now probe candidates name,
    ∀ q ∈ group now probe candidates name, p.1 ∈ out →
    depth p.1 probe < depth q.1 probe → q.1 ∈ out
  ranked : ∀ name name', ∀ p ∈ group now probe candidates name,
    ∀ q ∈ group now probe candidates name', p.1 ∈ out → q.1 ∉ out →
    rankOf horizonS priors probe (group now probe candidates name) ≤
      rankOf horizonS priors probe (group now probe candidates name')

theorem chainOrdered_of_initial {taken : List (BlockKey × Entry F)}
    (hnodup : (candidates.map Prod.fst).Nodup) (hsub : ∀ p ∈ taken, p ∈ candidates)
    (h : taken <+: (ranked horizonS priors now probe candidates).flatMap (leafFirst probe)) :
    ChainOrdered horizonS priors now probe candidates (taken.map Prod.fst) := by
  have hmem : ∀ {name : String} {p : BlockKey × Entry F}, p ∈ group now probe candidates name →
      (p.1 ∈ taken.map Prod.fst ↔ p ∈ taken) := by
    intro name p hp
    refine ⟨fun hkey => ?_,List.mem_map_of_mem⟩
    obtain ⟨p',hp',hsame⟩ := List.mem_map.mp hkey
    have heq := List.inj_on_of_nodup_map hnodup (hsub p' hp') (mem_group.mp hp).1 hsame
    exact heq ▸ hp'
  constructor
  case drawn =>
    intro key hkey
    obtain ⟨p,hp,rfl⟩ := List.mem_map.mp hkey
    exact ⟨p,hsub p hp,rfl⟩
  case split =>
    intro name name' p hp q hq hin hout p' hp' q' hq' hin' hout'
    rw [hmem hp] at hin
    rw [hmem hq] at hout
    rw [hmem hp'] at hin'
    rw [hmem hq'] at hout'
    exact split_unique h hp hq hin hout hp' hq' hin' hout'
  case deeper =>
    intro name p hp q hq hin hdeeper
    rw [hmem hp] at hin
    rw [hmem hq]
    exact taken_of_deeper h hp hq hin hdeeper
  case ranked =>
    intro name name' p hp q hq hin hout
    rw [hmem hp] at hin
    rw [hmem hq] at hout
    exact rank_le h hp hq hin hout

omit [Scalar F] in
theorem sharedRank_eq_one {chain : List (BlockKey × Entry F)} :
    sharedRank chain probe = 1 ↔
      ∀ p ∈ chain, ∃ info, probe.index.blocks.get p.1 = some info ∧ info.shared = true := by
  rw [sharedRank]
  split
  · rename_i h
    refine iff_of_true rfl fun p hp => ?_
    have hshared := List.all_eq_true.mp h p hp
    cases hinfo : probe.index.blocks.get p.1 with
    | none => simp [hinfo] at hshared
    | some info => exact ⟨info,rfl,by simpa [hinfo] using hshared⟩
  · rename_i h
    refine iff_of_false (by simp) fun hall => h (List.all_eq_true.mpr fun p hp => ?_)
    obtain ⟨info,hinfo,hshared⟩ := hall p hp
    simpa [hinfo] using hshared

end AdaptiveValuePolicy

/-! In a reachable index only shared blocks have several leases, and no private block is
filed in the group of one of them unless a session is called like it. -/
namespace PrefixIndex

variable {start index : PrefixIndex F} {past : List (Op F)} (h : Consistent start past index)
include h

theorem Consistent.shared_of_root {rootId : String} {i : ℤ} {info : BlockInfo F}
    (hinfo : index.blocks.get (.root rootId i) = some info) : info.shared = true := by
  have hagrees := h.recorded.get_of_blocks hinfo
  obtain ⟨op,_,part,hpart,hkey,_⟩ := hagrees.tokens.1
  obtain ⟨depth,hat⟩ := List.mem_iff_getElem?.mp hpart
  obtain ⟨_,role,_,_,hchain⟩ := Op.mem_parts hat
  rw [hchain] at hpart
  apply hagrees.shared.mpr
  cases List.mem_append.mp hpart with
  | inl hroot =>
    obtain ⟨j,hj⟩ := segment_key hroot
    exact ⟨role,j,hkey.symm.trans hj⟩
  | inr hpriv =>
    obtain ⟨j,hj⟩ := segment_key hpriv
    cases hkey.symm.trans hj

theorem Consistent.root_of_leases {key : BlockKey} {now : F}
    (hleases : 1 < (index.liveLeases key now).card) : ∃ rootId i, key = .root rootId i := by
  cases key with
  | root rootId i => exact ⟨rootId,i,rfl⟩
  | priv sessionId i =>
    refine absurd (Finset.card_le_one.mpr ?_) (not_le.mpr hleases)
    have hown : ∀ session ∈ index.liveLeases (.priv sessionId i) now, session = sessionId := by
      intro session hsession
      rw [liveLeases] at hsession
      cases hinfo : index.blocks.get (.priv sessionId i) with
      | none => simp [hinfo] at hsession
      | some info =>
        rw [hinfo] at hsession
        exact h.owned.lease_eq (mem_leasesOf.mpr ⟨info,hinfo,(Finset.mem_filter.mp hsession).1⟩)
    intro session hsession session' hsession'
    rw [hown session hsession,hown session' hsession']

theorem Consistent.shared_of_chainOf {probe : Probe F} (hprobe : probe.index = index)
    (hnames : ∀ session ∈ index.sessionPath, ∀ name, session ≠ "shared:" ++ name)
    {key : BlockKey} {rootId : String} {i : ℤ} {now : F}
    (hkey : AdaptiveValuePolicy.chainOf key now probe =
      "shared:" ++ (BlockKey.root rootId i).render) :
    ∃ info, index.blocks.get key = some info ∧ info.shared = true := by
  have hroot : ∀ info, (∃ rootId i, key = .root rootId i) →
      index.blocks.get key = some info → info.shared = true := by
    rintro info ⟨rootId,i,rfl⟩ hinfo
    exact h.shared_of_root hinfo
  rw [AdaptiveValuePolicy.chainOf,hprobe] at hkey
  cases hinfo : index.blocks.get key with
  | none =>
    rw [hinfo] at hkey
    have hfirst := congrArg (fun name => name.toList.head?) hkey
    simp [String.toList_append] at hfirst
  | some info =>
    rw [hinfo] at hkey
    refine ⟨info,rfl,hroot info ?_ hinfo⟩
    by_cases hmany : 1 < (index.liveLeases key now).card
    · exact h.root_of_leases hmany
    · simp only [hmany,if_false] at hkey
      cases hlive : (index.liveLeases key now).min with
      | top =>
        -- A block without live leases is filed under its own name.
        rw [hlive,WithTop.untopD_top,BlockKey.render_root,append_label] at hkey
        cases key with
        | root rootId' i' => exact ⟨rootId',i',rfl⟩
        | priv sessionId i' =>
          rw [BlockKey.render_priv,label_inj (by decide) (by decide)] at hkey
          exact absurd hkey.2.1 (by decide)
      | coe session =>
        rw [hlive,WithTop.untopD_coe] at hkey
        have hlease := Finset.mem_of_min hlive
        rw [liveLeases,hinfo] at hlease
        have hpath := (h.owned.agree.leases key session).mp
          (mem_leasesOf.mpr ⟨info,hinfo,(Finset.mem_filter.mp hlease).1⟩)
        refine absurd hkey (hnames session ?_ _)
        rw [Dict.mem_iff_get]
        cases hget : index.sessionPath.get session with
        | none => simp [pathOf,hget] at hpath
        | some path => exact ⟨path,rfl⟩

end PrefixIndex

open AdaptiveValuePolicy

omit [Scalar F] in
theorem AdaptiveValuePolicy.sharedRank_le_one (chain : List (BlockKey × Entry F))
    (probe : Probe F) : sharedRank chain probe ≤ 1 := by
  rw [sharedRank]
  split <;> decide

/-- The order of an eviction, as far as the entries do not expire: groups go whole and in the
order of their rank, the last one from its deepest blocks on. -/
theorem AdaptiveValuePolicy.evict_chainOrdered {entries : Entries F}
    (hlasting : ∀ p ∈ entries.items, p.2.expiresAt = ⊤) {neededBytes : ℤ}
    (hneeded : 0 < neededBytes) (horizonS : F) (priors : Dict String F) (now : F) (probe : Probe F)
    (protectedKeys : Finset BlockKey) :
    ChainOrdered horizonS priors now probe (entries.items.filter fun p => p.1 ∉ protectedKeys)
        ((evict horizonS priors entries now probe neededBytes protectedKeys).1.getD []) ∧
      (evict horizonS priors entries now probe neededBytes protectedKeys).2 = entries.eraseAll
        ((evict horizonS priors entries now probe neededBytes protectedKeys).1.getD []) := by
  let policy : TierPolicy F := ⟨.adaptiveValue horizonS priors,0,entries⟩
  have hpolicy : Lasting policy := by
    refine ⟨fun _ _ _ _ => rfl,fun key e he => ?_⟩
    exact hlasting (key,e) (Dict.get_eq_some.mp he)
  have hevict : evict horizonS priors entries now probe neededBytes protectedKeys =
      evicted entries (policy.victims protectedKeys now probe neededBytes) := by
    have hentries := policy.evictEntries_eq protectedKeys now probe hneeded
    rwa [hpolicy.swept] at hentries
  have hcandidates : policy.candidates protectedKeys now =
      entries.items.filter fun p => p.1 ∉ protectedKeys := by
    rw [TierPolicy.candidates,hpolicy.swept]
  rw [hevict,evicted_keys]
  refine ⟨?_,rfl⟩
  have htaken := takeUntil_initial (·.2.nbytes) neededBytes 0
    (policy.order protectedKeys now probe)
  have horder := policy.order_perm protectedKeys now probe
  rw [hcandidates] at horder
  have hmem : ∀ p ∈ takeUntil (·.2.nbytes) neededBytes 0 (policy.order protectedKeys now probe),
      p ∈ entries.items.filter fun p => p.1 ∉ protectedKeys := fun p hp =>
    horder.subset (htaken.subset hp)
  refine chainOrdered_of_initial horizonS priors ?_ hmem ?_
  · exact (List.filter_sublist.map _).nodup entries.nodup
  · rwa [← hcandidates]

/-- In every reachable index whose sessions are not called like a group, an eviction under
the adaptive policy takes whole groups but for one and that one from its deepest blocks, in
the order of the ranks, and a block of several live sessions only after the private ones. -/
theorem PrefixIndex.evict_order {blockTokens : ℤ} {cost : CostModel F} {ops : List (Op F)}
    {index : PrefixIndex F} (hindex : ops.foldlM PrefixIndex.apply (new blockTokens cost) = .ok index)
    (hnames : ∀ session ∈ index.sessionPath, ∀ name, session ≠ "shared:" ++ name)
    {entries : Entries F} (hlasting : ∀ p ∈ entries.items, p.2.expiresAt = ⊤)
    {neededBytes : ℤ} (hneeded : 0 < neededBytes) {probe : Probe F} (hprobe : probe.index = index)
    (horizonS : F) (priors : Dict String F) (now : F) (protectedKeys : Finset BlockKey) :
    let result := evict horizonS priors entries now probe neededBytes protectedKeys
    ChainOrdered horizonS priors now probe (entries.items.filter fun p => p.1 ∉ protectedKeys)
        (result.1.getD []) ∧
      ∀ key ∈ result.1.getD [], 1 < (index.liveLeases key now).card →
        ∀ p ∈ result.2.items, p.1 ∉ protectedKeys →
          ∃ info, index.blocks.get p.1 = some info ∧ info.shared = true := by
  intro result
  obtain ⟨index',hindex',hconsistent⟩ := run_consistent blockTokens cost ops
  obtain rfl := Except.ok.inj (hindex.symm.trans hindex')
  obtain ⟨hordered,hleft⟩ := evict_chainOrdered hlasting hneeded horizonS priors now probe
    protectedKeys
  refine ⟨hordered,fun key hkey hmany q hq hunprotected => ?_⟩
  have hkept : q.1 ∉ result.1.getD [] ∧ q ∈ entries.items := by
    have hitem := hleft ▸ hq
    rw [Dict.eraseAll,Dict.items_filter,List.mem_filter] at hitem
    exact ⟨by simpa using hitem.2,hitem.1⟩
  have hcandidate : q ∈ entries.items.filter fun p => p.1 ∉ protectedKeys :=
    List.mem_filter.mpr ⟨hkept.2,by simpa using hunprotected⟩
  obtain ⟨p,hp,rfl⟩ := hordered.drawn key hkey
  obtain ⟨rootId,i,hroot⟩ := hconsistent.root_of_leases hmany
  -- All the blocks that are filed with this one are shared.
  have hname : chainOf p.1 now probe = "shared:" ++ p.1.render := by
    rw [chainOf,hprobe]
    cases hinfo : index.blocks.get p.1 with
    | none => simp [liveLeases,hinfo] at hmany
    | some info => simp only [hmany,if_true]
  have hshared : sharedRank (group now probe (entries.items.filter fun p => p.1 ∉ protectedKeys)
      (chainOf p.1 now probe)) probe = 1 := by
    apply sharedRank_eq_one.mpr
    intro r hr
    have hr' := (mem_group.mp hr).2
    rw [hname,hroot] at hr'
    rw [hprobe]
    exact hconsistent.shared_of_chainOf hprobe hnames hr'
  have hrank := hordered.ranked _ _ p (mem_group.mpr ⟨hp,rfl⟩) q (mem_group.mpr ⟨hcandidate,rfl⟩)
    hkey hkept.1
  have hle := Prod.Lex.monotone_fst _ _ hrank
  have hone : sharedRank (group now probe (entries.items.filter fun p => p.1 ∉ protectedKeys)
      (chainOf q.1 now probe)) probe = 1 := le_antisymm (sharedRank_le_one _ _) (hshared ▸ hle)
  rw [← hprobe]
  exact sharedRank_eq_one.mp hone q (mem_group.mpr ⟨hcandidate,rfl⟩)

/-- Two sessions of one role, with two shared blocks and one private block each. -/
def PrefixIndex.twoSessions : PrefixIndex ℚ :=
  (((PrefixIndex.new 1000 .default).touchPath "a" "x" 2500 1500 0 false).1.touchPath
    "b" "x" 2500 1500 1 false).1

def twoSessionsProbe : Probe ℚ :=
  { TierPolicy.emptyProbe with index := PrefixIndex.twoSessions }

def twoSessionsEntries : Entries ℚ :=
  .ofList ([.root "root:x" 0,.root "root:x" 1,.priv "a" 2,.priv "b" 2].map fun key =>
    (key,{ nbytes := 100, insertedAt := 0, lastTouch := 0 }))

/-- Asked for 150 bytes while a block of the first session is protected, the policy takes the
private block of the second one before it takes a shared block. -/
theorem PrefixIndex.evict_order_twoSessions :
    let result := evict 120 rolePriors twoSessionsEntries 2 twoSessionsProbe 150 {.priv "a" 2}
    ∀ key ∈ result.1.getD [], 1 < (PrefixIndex.twoSessions.liveLeases key 2).card →
      ∀ p ∈ result.2.items, p.1 ∉ ({.priv "a" 2} : Finset BlockKey) →
        ∃ info, PrefixIndex.twoSessions.blocks.get p.1 = some info ∧ info.shared = true := by
  have hnames : ∀ session ∈ PrefixIndex.twoSessions.sessionPath, ∀ name,
      session ≠ "shared:" ++ name := by
    intro session hsession name hname
    have hlength := congrArg String.length hname
    rw [String.length_append] at hlength
    have hshort : session.length = 1 := by
      have hall : ∀ p ∈ PrefixIndex.twoSessions.sessionPath.items, p.1.length = 1 := by
        decide +kernel
      obtain ⟨path,hpath⟩ := Dict.mem_iff_exists.mp hsession
      exact hall _ hpath
    rw [hshort] at hlength
    have hgroup : "shared:".length = 7 := by decide
    omega
  have hindex : [.touchPath "a" "x" 2500 1500 0 false,
      .touchPath "b" "x" 2500 1500 1 false].foldlM PrefixIndex.apply (PrefixIndex.new 1000 .default) =
        .ok PrefixIndex.twoSessions := rfl
  have hlasting : ∀ p ∈ twoSessionsEntries.items, p.2.expiresAt = ⊤ := by decide +kernel
  have hprobe : twoSessionsProbe.index = PrefixIndex.twoSessions := rfl
  exact (PrefixIndex.evict_order hindex hnames hlasting (by decide : (0 : ℤ) < 150) hprobe 120
    rolePriors 2 {.priv "a" 2}).2

end ContextResidency
