import ContextResidency.StoreStep
import ContextResidency.Rollback
import ContextResidency.Closing

/-! Chain-aware eviction and the prefixes that it leaves. Inside one group of blocks the
deepest goes first, so a group never gets a hole; a path that is scattered over several
groups keeps its prefix exactly when these go in the right order. -/
namespace ContextResidency

variable {F : Type}

/-- The resident blocks of a path are a contiguous prefix of it. -/
def Contiguous (entries : Entries F) (path : List BlockKey) : Prop :=
  path.filter (· ∈ entries) <+: path

instance (entries : Entries F) (path : List BlockKey) : Decidable (Contiguous entries path) :=
  inferInstanceAs (Decidable (_ <+: _))

theorem contiguous_iff_pairwise {entries : Entries F} {path : List BlockKey} :
    Contiguous entries path ↔ path.Pairwise fun a b => b ∈ entries → a ∈ entries := by
  unfold Contiguous
  induction path with
  | nil => simp
  | cons key path ih =>
    by_cases hkey : key ∈ entries
    · simp [hkey,ih]
    · simp only [List.filter_cons,hkey,decide_false,Bool.false_eq_true,if_false,
        List.pairwise_cons,imp_false]
      constructor
      · intro hinitial
        have hnone : ∀ b ∈ path, b ∉ entries := by
          cases hrest : path.filter (· ∈ entries) with
          | nil => simpa using List.filter_eq_nil_iff.mp hrest
          | cons first rest =>
            rw [hrest,List.cons_prefix_cons] at hinitial
            have hfirst : first ∈ path.filter (· ∈ entries) := hrest ▸ List.mem_cons_self
            exact absurd (hinitial.1 ▸ (List.mem_filter.mp hfirst).2) (by simpa using hkey)
        exact ⟨hnone,List.pairwise_of_forall_mem_list fun _ _ b hb hres => absurd hres (hnone b hb)⟩
      · rintro ⟨hnone,_⟩
        have hnil : path.filter (· ∈ entries) = [] :=
          List.filter_eq_nil_iff.mpr fun b hb => by simpa using hnone b hb
        rw [hnil]
        exact List.nil_prefix

variable [Scalar F]

/-! Under a policy without lifetimes no entry ever expires. -/
section Lasting

/-- The policy sets no lifetimes and its entries have none. -/
structure Lasting (policy : TierPolicy F) : Prop where
  expiry : ∀ key nbytes now probe, policy.expiry key nbytes now probe = ⊤
  entries : ∀ key e, policy.entries.get key = some e → e.expiresAt = ⊤

variable {policy : TierPolicy F} (h : Lasting policy)
include h

theorem Lasting.modify {key : BlockKey} {f : Entry F → Entry F}
    (hf : ∀ e, e.expiresAt = ⊤ → (f e).expiresAt = ⊤) :
    Lasting { policy with entries := policy.entries.modify key f } := by
  refine ⟨h.expiry,fun k e he => ?_⟩
  rw [Dict.get_modify] at he
  by_cases hk : k = key
  · rw [if_pos hk] at he
    obtain ⟨old,hold,rfl⟩ := Option.map_eq_some_iff.mp he
    exact hf old (h.entries key old hold)
  · rw [if_neg hk] at he
    exact h.entries k e he

theorem Lasting.insert (key : BlockKey) (nbytes : ℤ) (now : F) (probe : Probe F) :
    Lasting (policy.insert key nbytes now probe) := by
  rw [TierPolicy.insert]
  cases policy.get key with
  | none =>
    refine ⟨h.expiry,fun k e he => ?_⟩
    rw [Dict.get_set] at he
    by_cases hk : k = key
    · rw [if_pos hk] at he
      obtain rfl := Option.some.inj he
      exact h.expiry _ _ _ _
    · rw [if_neg hk] at he
      exact h.entries k e he
  | some old => exact h.modify fun e _ => h.expiry _ _ _ _

theorem Lasting.touch (keys : List BlockKey) (now : F) (probe : Probe F) :
    Lasting (policy.touch keys now probe) := by
  induction keys generalizing policy with
  | nil => exact h
  | cons key keys ih => exact ih (h.modify fun e _ => h.expiry _ _ _ _)

theorem Lasting.foresee (sched : Schedule F) (key : BlockKey) (now : F) :
    Lasting (Simulator.foresee sched key now policy) := by
  unfold Simulator.foresee
  split
  · exact h.modify fun e he => he
  · exact h

theorem Lasting.refreshOracle (sched : Schedule F) (keys : List BlockKey) (now : F) :
    Lasting { policy with entries := keys.foldl (fun entries key => entries.modify key fun e =>
      { e with nextUse := sched.next key now }) policy.entries } := by
  induction keys generalizing policy with
  | nil => exact h
  | cons key keys ih =>
    have hfirst : Lasting { policy with entries := policy.entries.modify key fun e =>
        { e with nextUse := sched.next key now } } := h.modify fun e he => he
    exact ih hfirst

theorem Lasting.evict (neededBytes : ℤ) (protectedKeys : Finset BlockKey) (now : F)
    (probe : Probe F) : Lasting (policy.evict neededBytes protectedKeys now probe).2 := by
  exact ⟨h.expiry,fun k e he => h.entries k e (policy.get_evict he)⟩

theorem Lasting.swept (now : F) : policy.swept now = policy.entries := by
  apply (policy.swept_eq_iff now).mpr
  intro _ p hp
  rw [h.entries p.1 p.2 (Dict.get_eq_some.mpr hp)]
  simp

end Lasting

namespace Simulator

theorem insertFresh_lasting (now : F) (sched : Schedule F) {s : Simulator F}
    (h : Lasting s.policy) (room : ℤ) (fresh : List (BlockKey × ℤ)) :
    Lasting (insertFresh now sched s room fresh).policy := by
  induction fresh generalizing s room with
  | nil => exact h
  | cons item fresh ih =>
    rw [insertFresh]
    split
    · exact h
    · exact ih ((h.insert _ _ _ _).foresee sched item.1 now) _

theorem store_lasting {s : Simulator F} (h : Lasting s.policy) (keys : List BlockKey) (now : F)
    (sched : Schedule F) : Lasting (s.storeBatchToHost keys now sched).policy := by
  obtain ⟨t,room,fresh,_,hpolicy,hstore⟩ := s.store_cases keys now sched
  have hlasting : Lasting t.policy := by
    rcases hpolicy with hsame | ⟨_,_,hevict⟩
    · exact hsame ▸ h
    · exact hevict ▸ h.evict _ _ _ _
  rw [hstore]
  exact insertFresh_lasting now sched hlasting room fresh

theorem one_lasting (sched : Schedule F) {s : Simulator F} (h : Lasting s.policy)
    (turn : Turn F) : Lasting (one sched s turn).policy := by
  have hfilled : Lasting (s.filled turn).policy := (filled_policy s turn).symm ▸ h
  exact ((store_lasting hfilled (s.path turn) turn.t sched).touch _ _ _).refreshOracle
    sched _ turn.t

end Simulator
/-! The depth on record is the position that a key names. -/
theorem Positional.toNat {keys : List BlockKey} (h : Positional keys) {j : ℕ} {key : BlockKey}
    (hj : keys[j]? = some key) : key.index.toNat = j := by
  have hkey := h j key hj
  omega

namespace PrefixIndex

def Placed (index : PrefixIndex F) : Prop :=
  ∀ key info, index.blocks.get key = some info → info.depth = key.index.toNat

theorem Placed.registerPart {index : PrefixIndex F} (h : index.Placed) (sessionId role : String)
    (now : F) {item : ChainPart × ℕ} (hitem : item.1.key.index.toNat = item.2) :
    (registerPart sessionId role now index item).Placed := by
  intro key info hinfo
  rw [PrefixIndex.registerPart,Dict.get_set] at hinfo
  by_cases hk : key = item.1.key
  · subst hk
    rw [if_pos rfl] at hinfo
    obtain rfl := Option.some.inj hinfo
    show (index.recordFor now item.2 item.1).depth = _
    rw [recordFor]
    cases hold : index.blocks.get item.1.key with
    | none => exact hitem.symm
    | some old =>
      have hdepth := h _ _ hold
      simp only
      split_ifs <;> exact hdepth
  · rw [if_neg hk] at hinfo
    exact h key info hinfo

omit [Scalar F] in
theorem Placed.discardRef {index : PrefixIndex F} (h : index.Placed) (sessionId : String)
    (key : BlockKey) : (index.discardRef sessionId key).Placed := by
  intro k info hinfo
  rw [PrefixIndex.discardRef,Dict.get_modify] at hinfo
  by_cases hk : k = key
  · rw [if_pos hk] at hinfo
    obtain ⟨old,hold,rfl⟩ := Option.map_eq_some_iff.mp hinfo
    exact hk ▸ h key old hold
  · rw [if_neg hk] at hinfo
    exact h k info hinfo

theorem Placed.registerParts {index : PrefixIndex F} (h : index.Placed) (sessionId role : String)
    (now : F) {items : List (ChainPart × ℕ)}
    (hitems : ∀ item ∈ items, item.1.key.index.toNat = item.2) :
    (items.foldl (PrefixIndex.registerPart sessionId role now) index).Placed := by
  induction items generalizing index with
  | nil => exact h
  | cons item items ih =>
    obtain ⟨hitem,hrest⟩ := List.forall_mem_cons.mp hitems
    exact ih (h.registerPart _ _ _ hitem) hrest

omit [Scalar F] in
theorem Placed.discardRefs {index : PrefixIndex F} (h : index.Placed) (sessionId : String)
    (keys : List BlockKey) : (keys.foldl (PrefixIndex.discardRef sessionId) index).Placed := by
  induction keys generalizing index with
  | nil => exact h
  | cons key keys ih => exact ih (h.discardRef _ _)

theorem Placed.touchPath {index : PrefixIndex F} (h : index.Placed) (sessionId role : String)
    (promptTokens sharedPrefixTokens : ℤ) (now : F) (aborted : Bool) :
    (index.touchPath sessionId role promptTokens sharedPrefixTokens now aborted).1.Placed := by
  apply Placed.discardRefs
  apply Placed.registerParts
  · exact h
  · intro item hitem
    have hat := List.mk_mem_zipIdx_iff_getElem?.mp hitem
    apply (index.chain_positional sessionId promptTokens sharedPrefixTokens s!"root:{role}").toNat
    rw [List.getElem?_map,hat]
    rfl

omit [Scalar F] in
theorem new_placed (blockTokens : ℤ) (cost : CostModel F) : (new blockTokens cost).Placed := by
  intro key info h
  simp [new] at h

end PrefixIndex

/-! Inside a group of the adaptive policy the deepest block goes first. -/
namespace AdaptiveValuePolicy

variable (horizonS : F) (priors : Dict String F) (now : F) (probe : Probe F)

/-- Blocks of one group come deepest first. -/
def LeafFirst (p q : BlockKey × Entry F) : Prop :=
  chainOf p.1 now probe = chainOf q.1 now probe → depth q.1 probe ≤ depth p.1 probe

theorem mem_chains {candidates : List (BlockKey × Entry F)} {name : String}
    {chain : List (BlockKey × Entry F)} (h : (name,chain) ∈ (chains now probe candidates).items) :
    ∀ p ∈ chain, chainOf p.1 now probe = name := by
  have hown : ∀ p : BlockKey × Entry F, chainOf p.1 now probe = chainOf p.1 now probe :=
    fun _ => rfl
  have hnone : ∀ (name : String) (chain : List (BlockKey × Entry F)),
      (Dict.empty : Dict String (List (BlockKey × Entry F))).get name = some chain →
      ∀ p ∈ chain, chainOf p.1 now probe = name := fun _ _ h => by simp at h
  exact Dict.mem_foldl_push _ id hown hnone (Dict.get_eq_some.mpr h)

theorem ranked_pairwise (candidates : List (BlockKey × Entry F)) :
    (ranked horizonS priors now probe candidates).Pairwise fun c c' =>
      ∀ p ∈ c, ∀ q ∈ c', chainOf p.1 now probe ≠ chainOf q.1 now probe := by
  have hgroups : (chains now probe candidates).values.Pairwise fun c c' =>
      ∀ p ∈ c, ∀ q ∈ c', chainOf p.1 now probe ≠ chainOf q.1 now probe := by
    have hnames := List.pairwise_map.mp (chains now probe candidates).nodup
    apply List.pairwise_map.mpr
    refine hnames.imp_of_mem fun {c c'} hc hc' hne p hp q hq => ?_
    rw [mem_chains now probe hc p hp,mem_chains now probe hc' q hq]
    exact hne
  exact ((sortedBy_perm _ _).pairwise_iff fun hc q hq p hp => (hc p hp q hq).symm).mpr hgroups

theorem ranked_leafFirst (candidates : List (BlockKey × Entry F)) :
    ((ranked horizonS priors now probe candidates).flatMap (leafFirst probe)).Pairwise
      (LeafFirst now probe) := by
  apply List.pairwise_flatMap.mpr
  constructor
  · intro chain _
    have hsorted := sortedBy_pairwise (fun p => OrderDual.toDual (depth p.1 probe)) chain
    exact hsorted.imp fun {p q} (hdepth : depth q.1 probe ≤ depth p.1 probe) _ => hdepth
  · -- Blocks of different groups are not compared at all.
    refine (ranked_pairwise horizonS priors now probe candidates).imp fun hc p hp q hq hsame => ?_
    exact absurd hsame (hc p (mem_sortedBy.mp hp) q (mem_sortedBy.mp hq))

end AdaptiveValuePolicy

namespace Simulator

/-- A state between two turns of a run under the adaptive policy, or inside a turn when it
reaches the host tier. -/
def Reached (cfg : SimConfig F) (horizonS : F) (priors : Dict String F) (ram : TierConfig F)
    (s : Simulator F) : Prop :=
  ∃ turns n, s = (start cfg (.adaptiveValue horizonS priors) ram).after turns n ∨
    ∃ turn, s = ((start cfg (.adaptiveValue horizonS priors) ram).after turns n).filled turn

/-- What the eviction relies on in such a state. -/
structure Chained (s : Simulator F) : Prop where
  weighed : Weighed s.index s.policy.entries
  lasting : Lasting s.policy
  placed : s.index.Placed
  positional : s.PositionalPaths
  leased : s.index.Leased

variable {cfg : SimConfig F} {horizonS : F} {priors : Dict String F} {ram : TierConfig F}

theorem after_chained (turns : List (Turn F)) (n : ℕ) :
    Chained ((start cfg (.adaptiveValue horizonS priors) ram).after turns n) where
  weighed := after_weighed cfg _ ram turns n
  lasting := by
    refine List.foldlRecOn (motive := fun s : Simulator F => Lasting s.policy) _ _ ?_
      fun s h turn _ => one_lasting _ h turn
    exact ⟨fun _ _ _ _ => rfl,fun key e he => by simp [start,new,TierPolicy.new] at he⟩
  placed := by
    refine List.foldlRecOn (motive := fun s : Simulator F => s.index.Placed) _ _
      (PrefixIndex.new_placed _ _) fun s h turn _ => ?_
    rw [one_index]
    exact h.touchPath _ _ _ _ _ _
  positional := exec_positionalPaths _ cfg _ ram _
  leased := exec_leased _ cfg _ ram _

theorem filled_chained {s : Simulator F} (h : Chained s) (turn : Turn F) :
    Chained (s.filled turn) where
  weighed := filled_weighed h.weighed turn
  lasting := by
    rw [filled_policy]
    exact h.lasting
  placed := by
    rw [filled_index]
    exact h.placed.touchPath _ _ _ _ _ _
  positional := by
    have hone := one_positionalPaths .empty h.positional turn
    intro session path hpath
    rw [filled_index] at hpath
    exact hone session path (by rwa [one_index])
  leased := by
    rw [filled_index]
    exact seenIndex_leased h.leased turn

theorem Reached.chained {s : Simulator F} (h : Reached cfg horizonS priors ram s) : Chained s := by
  obtain ⟨turns,n,h⟩ := h
  cases h with
  | inl h => exact h ▸ after_chained turns n
  | inr h =>
    obtain ⟨turn,rfl⟩ := h
    exact filled_chained (after_chained turns n) turn

theorem Reached.kind {s : Simulator F} (h : Reached cfg horizonS priors ram s) :
    s.policy.kind = .adaptiveValue horizonS priors := by
  obtain ⟨turns,n,h⟩ := h
  cases h with
  | inl h => exact h ▸ after_kind cfg _ ram turns n
  | inr h =>
    obtain ⟨turn,rfl⟩ := h
    rw [filled_policy]
    exact after_kind cfg _ ram turns n

section Evict

variable {s : Simulator F} (h : Chained s) {neededBytes : ℤ} (hneeded : 0 < neededBytes)
  {protectedKeys : Finset BlockKey} (hprotected : ∀ k ∈ protectedKeys, k ∉ s.policy.entries)
  {now : F} {probe : Probe F}
include h hprotected

theorem Chained.order_perm (now : F) (probe : Probe F) :
    (s.policy.order protectedKeys now probe).Perm s.policy.entries.items := by
  have hcandidates : s.policy.candidates protectedKeys now = s.policy.entries.items := by
    rw [TierPolicy.candidates,h.lasting.swept]
    apply List.filter_eq_self.mpr
    intro p hp
    simpa using fun hk => hprotected p.1 hk (Dict.mem_of_item hp)
  exact hcandidates ▸ s.policy.order_perm protectedKeys now probe

include hneeded in
/-- A resident block survives when the entries before it free enough. -/
theorem Chained.mem_evict_iff {key : BlockKey} (hkey : key ∈ s.policy.entries) :
    key ∈ (s.policy.evict neededBytes protectedKeys now probe).2.entries ↔
      neededBytes ≤
        ahead Prod.fst (·.2.nbytes) (s.policy.order protectedKeys now probe) key := by
  have hperm := h.order_perm hprotected now probe
  have hlisted : key ∈ (s.policy.order protectedKeys now probe).map Prod.fst :=
    (hperm.map Prod.fst).mem_iff.mpr hkey
  have hsized : ∀ p ∈ s.policy.order protectedKeys now probe,
      (p.1,p.2.nbytes) ∈ sizes s.policy.entries := fun p hp =>
    List.mem_map.mpr ⟨p,hperm.subset hp,rfl⟩
  have hsign : (∀ p ∈ s.policy.order protectedKeys now probe, 0 ≤ p.2.nbytes) ∨
      ∀ p ∈ s.policy.order protectedKeys now probe, p.2.nbytes ≤ 0 := by
    cases le_total 0 s.index.cost.kvBytesPerToken with
    | inl hkv => exact Or.inl fun p hp => (h.weighed.nonneg hkv _ (hsized p hp)).1
    | inr hkv => exact Or.inr fun p hp => h.weighed.nonpos hkv _ (hsized p hp)
  have htaken := mem_takeUntil_iff hneeded hlisted hsign
  rw [zero_add] at htaken
  have hentries : (s.policy.evict neededBytes protectedKeys now probe).2.entries =
      s.policy.entries.eraseAll (s.policy.victims protectedKeys now probe neededBytes) := by
    rw [TierPolicy.evict,s.policy.evictEntries_eq protectedKeys now probe hneeded,
      h.lasting.swept]
    rfl
  rw [hentries,Dict.mem_eraseAll,and_iff_right hkey,TierPolicy.victims,htaken,not_lt]

/-- Inside one group, what comes later on a path is evicted first. -/
theorem Chained.ahead_le (hkind : s.policy.kind = .adaptiveValue horizonS priors)
    (hprobe : probe.index = s.index) {session : String} {path : List BlockKey}
    (hpath : s.index.sessionPath.get session = some path) {i j : ℕ} (hij : i < j)
    {a b : BlockKey} (hi : path[i]? = some a) (hj : path[j]? = some b)
    (ha : a ∈ s.policy.entries) (hb : b ∈ s.policy.entries)
    (hsame : AdaptiveValuePolicy.chainOf a now probe = AdaptiveValuePolicy.chainOf b now probe) :
    ahead Prod.fst (·.2.nbytes) (s.policy.order protectedKeys now probe) b ≤
      ahead Prod.fst (·.2.nbytes) (s.policy.order protectedKeys now probe) a := by
  have hperm := h.order_perm hprotected now probe
  have hdepth : ∀ {k : ℕ} {key : BlockKey}, path[k]? = some key →
      AdaptiveValuePolicy.depth key probe = k := fun {k key} hk => by
    have hmem : key ∈ s.index.blocks := h.leased session path hpath key (List.mem_of_getElem? hk)
    obtain ⟨info,hinfo⟩ := Dict.mem_iff_get.mp hmem
    rw [AdaptiveValuePolicy.depth,hprobe,hinfo]
    exact (h.placed key info hinfo).trans ((h.positional session path hpath).toNat hk)
  have hleaves : (s.policy.order protectedKeys now probe).Pairwise
      (AdaptiveValuePolicy.LeafFirst now probe) := by
    rw [TierPolicy.order,hkind]
    exact AdaptiveValuePolicy.ranked_leafFirst horizonS priors now probe _
  have hn : ((s.policy.order protectedKeys now probe).map Prod.fst).Nodup :=
    (hperm.map Prod.fst).nodup_iff.mpr s.policy.entries.nodup
  obtain ⟨e,he⟩ := Dict.mem_iff_exists.mp ha
  obtain ⟨e',he'⟩ := Dict.mem_iff_exists.mp hb
  refine ahead_le_of_pairwise _ hn hleaves (hperm.mem_iff.mpr he) (hperm.mem_iff.mpr he') ?_
  intro hfirst
  have hback := hfirst hsame
  rw [hdepth hi,hdepth hj] at hback
  omega

end Evict

variable (s : Simulator F) (neededBytes : ℤ) (protectedKeys : Finset BlockKey) (now : F)
  (probe : Probe F)

/-- Every session whose resident blocks are a prefix of its path before the eviction has such
a prefix after it. -/
def KeepsPrefixes : Prop :=
  ∀ session path, s.index.sessionPath.get session = some path →
    Contiguous s.policy.entries path →
    Contiguous (s.policy.evict neededBytes protectedKeys now probe).2.entries path

/-- Where two resident blocks of such a path lie in different groups, and enough lies before
the later one in the order of eviction, then enough lies before the earlier one. -/
def GroupsInOrder : Prop :=
  ∀ session path, s.index.sessionPath.get session = some path →
    Contiguous s.policy.entries path → path.Pairwise fun a b => b ∈ s.policy.entries →
      AdaptiveValuePolicy.chainOf a now probe ≠ AdaptiveValuePolicy.chainOf b now probe →
      neededBytes ≤ ahead Prod.fst (·.2.nbytes) (s.policy.order protectedKeys now probe) b →
      neededBytes ≤ ahead Prod.fst (·.2.nbytes) (s.policy.order protectedKeys now probe) a

/-- In every reachable state under the adaptive policy, an eviction leaves prefixes exactly
when the groups that a path is scattered over go in the order of the path. -/
theorem keepsPrefixes_iff (cfg : SimConfig F) (horizonS : F) (priors : Dict String F)
    (ram : TierConfig F) (hreached : Reached cfg horizonS priors ram s)
    (hneeded : 0 < neededBytes) (hprotected : ∀ k ∈ protectedKeys, k ∉ s.policy.entries)
    (hprobe : probe.index = s.index) :
    KeepsPrefixes s neededBytes protectedKeys now probe ↔
      GroupsInOrder s neededBytes protectedKeys now probe := by
  have h := hreached.chained
  have hsurvives : ∀ key ∈ s.policy.entries,
      (key ∈ (s.policy.evict neededBytes protectedKeys now probe).2.entries ↔ neededBytes ≤
        ahead Prod.fst (·.2.nbytes) (s.policy.order protectedKeys now probe) key) :=
    fun key hkey => h.mem_evict_iff hneeded hprotected hkey
  have hless : ∀ key, key ∈ (s.policy.evict neededBytes protectedKeys now probe).2.entries →
      key ∈ s.policy.entries := fun key hkey => by
    rw [TierPolicy.evict,s.policy.evictEntries_eq protectedKeys now probe hneeded] at hkey
    exact h.lasting.swept now ▸ (Dict.mem_eraseAll.mp hkey).1
  constructor
  · intro hkeeps session path hpath hbefore
    have hafter := contiguous_iff_pairwise.mp (hkeeps session path hpath hbefore)
    refine (hafter.and (contiguous_iff_pairwise.mp hbefore)).imp fun {a b} hab hb _ henough => ?_
    exact (hsurvives a (hab.2 hb)).mp (hab.1 ((hsurvives b hb).mpr henough))
  · intro horder session path hpath hbefore
    have hres := List.pairwise_iff_getElem.mp (contiguous_iff_pairwise.mp hbefore)
    have hgroups := List.pairwise_iff_getElem.mp (horder session path hpath hbefore)
    apply contiguous_iff_pairwise.mpr
    apply List.pairwise_iff_getElem.mpr
    intro i j hi hj hij hkept
    have hb := hless _ hkept
    have ha := hres i j hi hj hij hb
    have henough := (hsurvives _ hb).mp hkept
    apply (hsurvives _ ha).mpr
    by_cases hsame : AdaptiveValuePolicy.chainOf path[i] now probe =
        AdaptiveValuePolicy.chainOf path[j] now probe
    · exact henough.trans (h.ahead_le hprotected hreached.kind hprobe hpath hij
        (List.getElem?_eq_getElem hi) (List.getElem?_eq_getElem hj) ha hb hsame)
    · exact hgroups i j hi hj hij hb hsame henough

def askRoot (sessionId : String) : Turn ℚ := { ask 0 sessionId 2000 with sharedPrefixTokens := 2000 }

/-- Both blocks of a root that two sessions share are resident. -/
def sharedRoot : Simulator ℚ :=
  (start (smallConfig 5000 5000) (.adaptiveValue 120 rolePriors) (smallRam 5000)).after
    [askRoot "a",askRoot "b"] 2

theorem sharedRoot_reached :
    Reached (smallConfig 5000 5000) 120 rolePriors (smallRam 5000) sharedRoot :=
  ⟨[askRoot "a",askRoot "b"],2,Or.inl rfl⟩

/-- Asked for all of their bytes, the eviction leaves no holes in the paths of the two. -/
theorem keepsPrefixes_iff_sharedRoot : KeepsPrefixes sharedRoot 2000 ∅ 0 sharedRoot.probe := by
  have hfew : ∀ key ∈ sharedRoot.policy.entries.keys, ¬ 2000 ≤ ahead Prod.fst (·.2.nbytes)
      (sharedRoot.policy.order ∅ 0 sharedRoot.probe) key := by decide +kernel
  refine (keepsPrefixes_iff sharedRoot 2000 ∅ 0 sharedRoot.probe (smallConfig 5000 5000) 120
    rolePriors (smallRam 5000) sharedRoot_reached (by decide) (by simp) rfl).mpr
      fun session path _ _ => ?_
  exact List.pairwise_of_forall fun a b hb _ henough => absurd henough (hfew b hb)

/-- Asked for one block, it takes the head of the root and keeps the rest. -/
theorem root_loses_its_head : ¬ ∀ (cfg : SimConfig ℚ) (horizonS : ℚ) (priors : Dict String ℚ)
    (ram : TierConfig ℚ) (s : Simulator ℚ) (neededBytes : ℤ) (protectedKeys : Finset BlockKey)
    (now : ℚ), Reached cfg horizonS priors ram s → 0 < neededBytes →
    (∀ k ∈ protectedKeys, k ∉ s.policy.entries) →
    KeepsPrefixes s neededBytes protectedKeys now s.probe := by
  intro h
  have hkept := h (smallConfig 5000 5000) 120 rolePriors (smallRam 5000) sharedRoot 1000 ∅ 0
    sharedRoot_reached (by decide) (by simp) "a" [.root "root:agent" 0,.root "root:agent" 1]
    (by decide +kernel) (by decide +kernel)
  exact absurd hkept (by decide +kernel)

end Simulator
end ContextResidency
