/-
**The read router.**

The extents of a scan are shared out among the nodes that are alive: each goes to the node whose
hash with it is the highest, and of several with this hash to the first in the order of their ids.
-/

import Pensieve.CatalogTypes
import Pensieve.HighestWeight

namespace Router

open List
open Catalog (Uuid ExtentId)
open HighestWeight

abbrev NodeId := Uuid

structure LiveNode where
  nodeId : NodeId
  endpoint : String
  deriving DecidableEq

structure ExtentManifest where
  id : ExtentId
  rowCount : ℕ
  deriving DecidableEq

inductive Target
  | here
  | remote (nodeId : NodeId) (endpoint : String)
  deriving DecidableEq

/-- A `u64`. -/
abbrev Score := Fin (2 ^ 64)

/-- The endpoint of the node itself is `none`. -/
structure ReadRouter where
  selfId : NodeId
  nodes : List (NodeId × Option String)
  deriving DecidableEq

def endpointToUrl (endpoint : String) : String :=
  if endpoint.startsWith "http://" || endpoint.startsWith "https://" then endpoint else "http://" ++ endpoint

def entry (selfId : NodeId) (n : LiveNode) : NodeId × Option String :=
  if n.nodeId = selfId then (n.nodeId, none) else (n.nodeId, some (endpointToUrl n.endpoint))

def ReadRouter.new (selfId : NodeId) (live : List LiveNode) : ReadRouter :=
  let listed := live.map (entry selfId)
  let nodes := if live.any fun n => n.nodeId = selfId then listed else listed ++ [(selfId, none)]
  ⟨selfId, nodes.insertionSort fun a b => a.1 ≤ b.1⟩

section Hash

-- the hash of the bytes of an extent and a node
variable (hash : ExtentId → NodeId → Score)

def better (extentId : ExtentId) (best : Option (Score × ℕ)) (e : (NodeId × Option String) × ℕ) : Option (Score × ℕ) :=
  if best.all fun b => b.1 < hash extentId e.1.1 then some (hash extentId e.1.1, e.2) else best

/-- **Where an extent is read**; `none` is a panic. -/
def ReadRouter.assign (r : ReadRouter) (extentId : ExtentId) : Option Target :=
  if r.nodes.length = 1 then some .here
  else do
    let best ← r.nodes.zipIdx.foldl (better hash extentId) none
    let node ← r.nodes[best.2]?
    if node.1 = r.selfId then some .here
    else do
      let endpoint ← node.2
      some (.remote node.1 endpoint)

structure Parts where
  atSelf : List ExtentManifest
  remote : List (NodeId × String × List ExtentManifest)
  deriving DecidableEq

/-- `entry(node_id).or_insert_with(..).1.push(m)` -/
def pushRemote (nodeId : NodeId) (endpoint : String) (m : ExtentManifest) :
    List (NodeId × String × List ExtentManifest) → List (NodeId × String × List ExtentManifest)
  | [] => [(nodeId, endpoint, [m])]
  | (k, url, ms) :: rest =>
    if k = nodeId then (k, url, ms ++ [m]) :: rest else (k, url, ms) :: pushRemote nodeId endpoint m rest

def Parts.push (parts : Parts) (m : ExtentManifest) : Target → Parts
  | .here => { parts with atSelf := parts.atSelf ++ [m] }
  | .remote nodeId endpoint => { parts with remote := pushRemote nodeId endpoint m parts.remote }

def partition (r : ReadRouter) (manifests : List ExtentManifest) : Option Parts :=
  manifests.foldlM (fun parts m => (r.assign hash m.id).map (parts.push m)) ⟨[], []⟩

/-! ### Owners -/

def ReadRouter.nodeOf (r : ReadRouter) : Target → NodeId
  | .here => r.selfId
  | .remote nodeId _ => nodeId

def ReadRouter.owner (r : ReadRouter) (extentId : ExtentId) : Option NodeId := (r.assign hash extentId).map r.nodeOf

end Hash

def nodeSet (selfId : NodeId) (live : List LiveNode) : Finset NodeId := insert selfId (live.map (·.nodeId)).toFinset

def Parts.share (parts : Parts) (selfId n : NodeId) : List ExtentManifest :=
  if n = selfId then parts.atSelf else ((parts.remote.lookup n).map (·.2)).getD []

section Owners

variable {hash : ExtentId → NodeId → Score} {selfId : NodeId} {live : List LiveNode}

theorem entry_fst (n : LiveNode) : (entry selfId n).1 = n.nodeId := by
  unfold entry
  split <;> rfl

theorem mem_nodes {id : NodeId} : id ∈ (ReadRouter.new selfId live).nodes.map (·.1) ↔ id ∈ nodeSet selfId live := by
  have hids : live.map (fun n => (entry selfId n).1) = live.map (·.nodeId) := map_congr_left fun n _ => entry_fst n
  have hperm : ((ReadRouter.new selfId live).nodes.map (·.1)).Perm
      (if live.any fun n => n.nodeId = selfId then live.map (·.nodeId) else live.map (·.nodeId) ++ [selfId]) := by
    refine ((perm_insertionSort _ _).map _).trans (List.Perm.of_eq ?_)
    split <;> simp [Function.comp_def, hids]
  rw [hperm.mem_iff, nodeSet, Finset.mem_insert, mem_toFinset]
  split
  next hself =>
    obtain ⟨n, hn, hid⟩ := any_eq_true.1 hself
    have hmem : selfId ∈ live.map (·.nodeId) := mem_map.2 ⟨n, hn, by simpa using hid⟩
    constructor
    · exact .inr
    · rintro (rfl | h)
      · exact hmem
      · exact h
  next =>
    rw [mem_append, mem_singleton]
    exact Or.comm

theorem toFinset_nodes : ((ReadRouter.new selfId live).nodes.map (·.1)).toFinset = nodeSet selfId live := by
  ext id
  rw [mem_toFinset, mem_nodes]

theorem sorted_nodes : ((ReadRouter.new selfId live).nodes.map (·.1)).Pairwise (· ≤ ·) := by
  rw [pairwise_map]
  exact pairwise_insertionSort (fun a b : NodeId × Option String => a.1 ≤ b.1) _

theorem endpoint_of_ne {node : NodeId × Option String} (h : node ∈ (ReadRouter.new selfId live).nodes)
    (hne : node.1 ≠ selfId) : ∃ url, node.2 = some url := by
  have hlisted : node ∈ live.map (entry selfId) := by
    replace h := (perm_insertionSort _ _).mem_iff.1 h
    split at h
    · exact h
    · rcases mem_append.1 h with h | h
      · exact h
      · rw [mem_singleton.1 h] at hne
        exact absurd rfl hne
  obtain ⟨n, -, rfl⟩ := mem_map.1 hlisted
  rw [entry_fst] at hne
  exact ⟨endpointToUrl n.endpoint, by rw [entry, if_neg hne]⟩

theorem foldl_better (hash : ExtentId → NodeId → Score) (extentId : ExtentId) {nodes : List (NodeId × Option String)}
    (hne : nodes ≠ []) :
    ∃ best node, nodes.zipIdx.foldl (better hash extentId) none = some best ∧ nodes[best.2]? = some node ∧
      best.1 = hash extentId node.1 ∧ pick (hash extentId) (nodes.map (·.1)) = some node.1 := by
  induction nodes using List.reverseRecOn with
  | nil => exact absurd rfl hne
  | append_singleton nodes x ih =>
    rw [zipIdx_append, foldl_append, map_append, map_singleton, pick_append_singleton]
    simp only [zipIdx_singleton, Nat.zero_add, foldl_cons, foldl_nil]
    cases nodes with
    | nil => exact ⟨(hash extentId x.1, 0), x, rfl, rfl, rfl, rfl⟩
    | cons y rest =>
      obtain ⟨best, node, hbest, hnode, hweight, hpick⟩ := ih (cons_ne_nil y rest)
      rw [hbest, hpick, keep, better]
      simp only [Option.all_some, decide_eq_true_eq, hweight]
      by_cases hlt : hash extentId node.1 < hash extentId x.1
      · rw [if_pos hlt, if_pos hlt]
        exact ⟨_, x, rfl, by simp, rfl, rfl⟩
      · rw [if_neg hlt, if_neg hlt]
        refine ⟨best, node, rfl, ?_, hweight, rfl⟩
        rw [getElem?_append_left (List.getElem?_eq_some_iff.1 hnode).1]
        exact hnode

/-- **The owner of an extent is the best of the nodes**, and the extent is read here if that is the node itself. -/
theorem isBest_owner (hash : ExtentId → NodeId → Score) (selfId : NodeId) (live : List LiveNode) (extentId : ExtentId) :
    ∃ target, (ReadRouter.new selfId live).assign hash extentId = some target ∧
      IsBest (hash extentId) (nodeSet selfId live) ((ReadRouter.new selfId live).nodeOf target) ∧
      ∀ nodeId url, target = .remote nodeId url → nodeId ≠ selfId := by
  have hself : selfId ∈ nodeSet selfId live := Finset.mem_insert_self _ _
  set r := ReadRouter.new selfId live with hr
  have hid : r.selfId = selfId := rfl
  unfold ReadRouter.assign
  by_cases hone : r.nodes.length = 1
  · rw [if_pos hone]
    obtain ⟨node, hnodes⟩ := length_eq_one_iff.1 hone
    have hset : nodeSet selfId live = {node.1} := by
      rw [← toFinset_nodes, ← hr, hnodes]
      rfl
    have heq : selfId = node.1 := by
      rw [hset] at hself
      exact Finset.mem_singleton.1 hself
    refine ⟨.here, rfl, ?_, fun _ _ h => nomatch h⟩
    rw [hset, ← heq]
    exact ⟨Finset.mem_singleton_self _, by simp [ReadRouter.nodeOf, hid], by simp [ReadRouter.nodeOf, hid]⟩
  · rw [if_neg hone]
    have hne : r.nodes ≠ [] := by
      intro hnil
      rw [← mem_nodes, ← hr, hnil] at hself
      cases hself
    obtain ⟨best, node, hbest, hnode, -, hpick⟩ := foldl_better hash extentId hne
    have hisBest := isBest_pick sorted_nodes hpick
    rw [toFinset_nodes] at hisBest
    rw [hbest]
    simp only [Option.bind_eq_bind, Option.bind_some, hnode, hid]
    by_cases hhere : node.1 = selfId
    · have hnodeOf : r.nodeOf .here = node.1 := hhere.symm
      rw [if_pos hhere]
      exact ⟨.here, rfl, by rwa [hnodeOf], fun _ _ h => nomatch h⟩
    · obtain ⟨url, hurl⟩ := endpoint_of_ne (mem_of_getElem? hnode) hhere
      rw [if_neg hhere, hurl]
      refine ⟨.remote node.1 url, rfl, hisBest, fun nodeId url' h => ?_⟩
      cases h
      exact hhere

theorem owner_eq_some (hash : ExtentId → NodeId → Score) (selfId : NodeId) (live : List LiveNode)
    (extentId : ExtentId) :
    ∃ n, (ReadRouter.new selfId live).owner hash extentId = some n ∧ IsBest (hash extentId) (nodeSet selfId live) n := by
  obtain ⟨target, htarget, hbest, -⟩ := isBest_owner hash selfId live extentId
  exact ⟨_, by rw [ReadRouter.owner, htarget, Option.map_some], hbest⟩

theorem owner_of_isBest {extentId : ExtentId} {n : NodeId} (h : IsBest (hash extentId) (nodeSet selfId live) n) :
    (ReadRouter.new selfId live).owner hash extentId = some n := by
  obtain ⟨n', howner, hbest⟩ := owner_eq_some hash selfId live extentId
  rw [howner, hbest.unique h]

end Owners

section Shares

variable {hash : ExtentId → NodeId → Score} {selfId : NodeId} {live : List LiveNode}

theorem lookup_pushRemote (nodeId n : NodeId) (endpoint : String) (m : ExtentManifest)
    (remote : List (NodeId × String × List ExtentManifest)) :
    (((pushRemote nodeId endpoint m remote).lookup n).map (·.2)).getD [] =
      ((remote.lookup n).map (·.2)).getD [] ++ if n = nodeId then [m] else [] := by
  induction remote with
  | nil =>
    by_cases hn : n = nodeId
    · simp [pushRemote, hn]
    · simp [pushRemote, lookup_cons, beq_false_of_ne hn, hn]
  | cons x rest ih =>
    obtain ⟨k, url, ms⟩ := x
    rw [pushRemote]
    by_cases hk : k = nodeId
    · by_cases hn : n = nodeId
      · simp [hk, hn]
      · simp [hk, lookup_cons, beq_false_of_ne hn, hn]
    · rw [if_neg hk]
      by_cases hn : n = k
      · simp [hn, hk]
      · simp only [lookup_cons, beq_false_of_ne hn]
        exact ih

theorem share_push {parts : Parts} {m : ExtentManifest} {target : Target} {r : ReadRouter} {n : NodeId}
    (hremote : ∀ nodeId url, target = .remote nodeId url → nodeId ≠ r.selfId) :
    (parts.push m target).share r.selfId n = parts.share r.selfId n ++ if r.nodeOf target = n then [m] else [] := by
  cases target with
  | here =>
    unfold Parts.push Parts.share ReadRouter.nodeOf
    by_cases hn : n = r.selfId
    · simp [hn]
    · simp [hn, Ne.symm hn]
  | remote nodeId url =>
    have hne := hremote nodeId url rfl
    unfold Parts.push Parts.share ReadRouter.nodeOf
    by_cases hn : n = r.selfId
    · simp [hn, hne]
    · rw [if_neg hn, if_neg hn, lookup_pushRemote]
      simp [eq_comm]

/-- **Every extent is in the share of its owner and in no other**, as often and in the order in which it came. -/
theorem partition_eq_some (hash : ExtentId → NodeId → Score) (selfId : NodeId) (live : List LiveNode)
    (manifests : List ExtentManifest) : ∃ parts, partition hash (ReadRouter.new selfId live) manifests = some parts ∧
      ∀ n, parts.share selfId n = manifests.filter fun m => (ReadRouter.new selfId live).owner hash m.id = some n := by
  unfold partition
  induction manifests using List.reverseRecOn with
  | nil => exact ⟨⟨[], []⟩, rfl, fun n => by simp [Parts.share]⟩
  | append_singleton manifests m ih =>
    obtain ⟨parts, hparts, hshare⟩ := ih
    obtain ⟨target, htarget, -, hremote⟩ := isBest_owner hash selfId live m.id
    refine ⟨parts.push m target, ?_, fun n => ?_⟩
    · rw [foldlM_append, hparts]
      simp [htarget]
    · have howner : (ReadRouter.new selfId live).owner hash m.id =
          some ((ReadRouter.new selfId live).nodeOf target) := by
        rw [ReadRouter.owner, htarget, Option.map_some]
      rw [filter_append, ← hshare n]
      refine (share_push (r := ReadRouter.new selfId live) hremote).trans ?_
      congr 1
      rw [filter_singleton, howner]
      simp

end Shares

/-! ### Routing -/

/-- **Rendezvous routing**: every extent is shared out to one of the nodes, and which one that is does not depend on who
computes it or on the order of the listing; of two sets of nodes, where one has a node more, the owners differ only on
the extents which that node owns. -/
theorem routes (hash : ExtentId → NodeId → Score) (selfId : NodeId) (live : List LiveNode) :
    (∀ manifests, ∃ parts, partition hash (ReadRouter.new selfId live) manifests = some parts ∧
      (∀ n, parts.share selfId n = manifests.filter fun m => (ReadRouter.new selfId live).owner hash m.id = some n) ∧
      ∀ m ∈ manifests, ∃ n ∈ nodeSet selfId live, ∀ k, m ∈ parts.share selfId k ↔ k = n) ∧
      (∀ selfId' live', nodeSet selfId' live' = nodeSet selfId live → ∀ extentId,
        (ReadRouter.new selfId' live').owner hash extentId = (ReadRouter.new selfId live).owner hash extentId) ∧
      (∀ selfId' live' n, nodeSet selfId' live' = (nodeSet selfId live).erase n → ∀ extentId,
        (ReadRouter.new selfId live).owner hash extentId ≠ some n →
          (ReadRouter.new selfId' live').owner hash extentId = (ReadRouter.new selfId live).owner hash extentId) ∧
      ∀ selfId' live' n, nodeSet selfId' live' = insert n (nodeSet selfId live) → ∀ extentId,
        (ReadRouter.new selfId' live').owner hash extentId = some n ∨
          (ReadRouter.new selfId' live').owner hash extentId = (ReadRouter.new selfId live).owner hash extentId := by
  refine ⟨fun manifests => ?_, fun selfId' live' hset extentId => ?_, fun selfId' live' n hset extentId hne => ?_,
    fun selfId' live' n hset extentId => ?_⟩
  · obtain ⟨parts, hparts, hshare⟩ := partition_eq_some hash selfId live manifests
    refine ⟨parts, hparts, hshare, fun m hm => ?_⟩
    obtain ⟨n, howner, hbest⟩ := owner_eq_some hash selfId live m.id
    refine ⟨n, hbest.mem, fun k => ?_⟩
    rw [hshare, mem_filter, howner]
    simp [hm, eq_comm]
  · obtain ⟨n, howner, hbest⟩ := owner_eq_some hash selfId live extentId
    rw [howner]
    exact owner_of_isBest (hset ▸ hbest)
  · obtain ⟨k, howner, hbest⟩ := owner_eq_some hash selfId live extentId
    have hkn : k ≠ n := fun h => hne (h ▸ howner)
    rw [howner]
    refine owner_of_isBest ?_
    rw [hset]
    exact hbest.of_subset (Finset.erase_subset n _) (Finset.mem_erase.2 ⟨hkn, hbest.mem⟩)
  · obtain ⟨k, howner, hbest⟩ := owner_eq_some hash selfId live extentId
    obtain ⟨k', howner', hbest'⟩ := owner_eq_some hash selfId' live' extentId
    rw [hset] at hbest'
    rw [howner, howner']
    exact (hbest.insert_cases hbest').imp (congrArg some) (congrArg some)

/-- A node that the listing does not have yet computes that an extent is its own, and the node of the listing computes
that it is not. -/
theorem owner_not_live :
    ¬∀ (hash : ExtentId → NodeId → Score) (selfId : NodeId) (live : List LiveNode) (extentId : ExtentId),
      (∃ n ∈ live.map (·.nodeId), (ReadRouter.new selfId live).owner hash extentId = some n) ∧
        ∀ selfId', (ReadRouter.new selfId' live).owner hash extentId =
          (ReadRouter.new selfId live).owner hash extentId := by
  intro h
  have hown := (h (fun _ n => Fin.ofNat _ n) 2 [⟨1, "a"⟩] 0).1
  revert hown
  decide +kernel

end Router
