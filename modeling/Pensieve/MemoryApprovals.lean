/-
**The approval queue of memory operations.**

A row of the queue stands for an operation that waits for an approval (`gate`), or that has been
carried out and may be undone (`post_hoc`).
-/

import Mathlib.Tactic
import Pensieve.Precedence
import Pensieve.Rows
import Pensieve.Runs

namespace Approvals

open List
open Precedence (Ahead ahead_append)

/-! ### Rows -/

abbrev RowId := ℕ

abbrev Timestamp := ℤ

inductive Mode
  | gate
  | postHoc
  deriving DecidableEq

inductive Status
  | pending
  | approved
  | rejected
  | autoApplied
  | rolledBack
  deriving DecidableEq

def Status.text : Status → String
  | .pending => "pending"
  | .approved => "approved"
  | .rejected => "rejected"
  | .autoApplied => "auto_applied"
  | .rolledBack => "rolled_back"

/-- A row of the queue, over the type `V` of JSON values. -/
structure QueueRow (V : Type) where
  id : RowId
  mode : Mode
  status : Status
  payload : V
  inverse : Option V
  resolvedAt : Option Timestamp
  resolvedBy : Option String
  resolutionComment : Option String
  deriving DecidableEq

variable {V Op Inverse : Type}

def QueueRow.new (id : RowId) (mode : Mode) (status : Status) (payload : V) (inverse : Option V) : QueueRow V :=
  ⟨id, mode, status, payload, inverse, none, none, none⟩

def updateStatus (id : RowId) (status : Status) (resolver comment : Option String) (now : Timestamp) :
    List (QueueRow V) → List (QueueRow V) :=
  Rows.updateWhere (fun r => r.id = id) fun r =>
    { r with status := status, resolvedAt := some now, resolvedBy := resolver, resolutionComment := comment }

/-! ### Requests -/

inductive ResolveAction
  | approve
  | reject
  | undo
  deriving DecidableEq

def ResolveAction.takes : ResolveAction → Status
  | .approve | .reject => .pending
  | .undo => .autoApplied

def ResolveAction.leaves : ResolveAction → Status
  | .approve => .approved
  | .reject => .rejected
  | .undo => .rolledBack

def ResolveAction.vanished : ResolveAction → String
  | .approve => "row vanished during approve"
  | .reject => "row vanished during reject"
  | .undo => "row vanished during undo"

structure Codec (V Op Inverse : Type) where
  payload : V → Except String Op
  inverse : V → Except String Inverse

inductive Effect (Op Inverse : Type)
  | apply (op : Op)
  | invert (inv : Inverse)
  | nothing
  deriving DecidableEq

/-- **What a request is about to do**, from the row that it has read. -/
def check (codec : Codec V Op Inverse) (row : QueueRow V) (edited : Option Op) :
    ResolveAction → Except String (Effect Op Inverse)
  | .approve =>
    if row.status ≠ .pending then
      .error ("only pending rows can be approved (status: " ++ row.status.text ++ ")")
    else
      match edited with
      | some op => .ok (.apply op)
      | none => (codec.payload row.payload).map .apply
  | .reject =>
    if row.status ≠ .pending then
      .error ("only pending rows can be rejected (status: " ++ row.status.text ++ ")")
    else .ok .nothing
  | .undo =>
    if row.status ≠ .autoApplied then
      .error ("only auto-applied (post-hoc) rows can be undone (status: " ++ row.status.text ++ ")")
    else
      match row.inverse with
      | none => .error "row has no inverse to undo"
      | some v => (codec.inverse v).map .invert

inductive Stage (V Op Inverse : Type)
  | opened
  | checked (effect : Effect Op Inverse)
  | performed
  | done (result : Except String (QueueRow V))

structure Request (V Op Inverse : Type) where
  row : RowId
  action : ResolveAction
  edited : Option Op
  comment : Option String
  resolver : Option String
  stage : Stage V Op Inverse

inductive Event (Op Inverse : Type)
  | applied (row : RowId) (op : Op)
  | inverted (row : RowId) (inv : Inverse)
  deriving DecidableEq

structure St (V Op Inverse : Type) where
  rows : List (QueueRow V)
  requests : List (Request V Op Inverse)
  log : List (Event Op Inverse)

/-! ### Steps -/

inductive Action (V Op Inverse : Type)
  /-- `dispatch` defers an operation -/
  | defer (id : RowId) (payload : V)
  /-- `dispatch` carries an operation out, and records how to undo it -/
  | record (id : RowId) (op : Op) (payload : V) (inverse : Option V)
  /-- `resolve` is called -/
  | request (id : RowId) (action : ResolveAction) (edited : Option Op) (comment resolver : Option String)
  /-- the request at place `i` reads its row -/
  | get (i : ℕ)
  /-- `apply_op` or `apply_inverse`, which may fail -/
  | perform (i : ℕ) (error : Option String)
  /-- `update_status`, which may fail -/
  | write (i : ℕ) (now : Timestamp) (error : Option String)

def read (codec : Codec V Op Inverse) (rows : List (QueueRow V)) (r : Request V Op Inverse) : Stage V Op Inverse :=
  match rows.find? (·.id = r.row) with
  | none => .done (.error "queue row not found")
  | some row =>
    match check codec row r.edited r.action with
    | .ok effect => .checked effect
    | .error e => .done (.error e)

def Effect.event (row : RowId) : Effect Op Inverse → Option (Event Op Inverse)
  | .apply op => some (.applied row op)
  | .invert inv => some (.inverted row inv)
  | .nothing => none

def Stage.writes : Stage V Op Inverse → Bool
  | .performed | .checked .nothing => true
  | _ => false

def St.setStage (s : St V Op Inverse) (i : ℕ) (r : Request V Op Inverse) (stage : Stage V Op Inverse) :
    St V Op Inverse :=
  { s with requests := s.requests.set i { r with stage := stage } }

/-- **One step.** -/
def step (codec : Codec V Op Inverse) (s : St V Op Inverse) : Action V Op Inverse → Option (St V Op Inverse)
  | .defer id payload =>
    if id ∈ s.rows.map QueueRow.id then none
    else some { s with rows := s.rows ++ [.new id .gate .pending payload none] }
  | .record id op payload inverse =>
    if id ∈ s.rows.map QueueRow.id then none
    else some { s with
      rows := s.rows ++ [.new id .postHoc .autoApplied payload inverse]
      log := s.log ++ [.applied id op] }
  | .request id action edited comment resolver =>
    some { s with requests := s.requests ++ [⟨id, action, edited, comment, resolver, .opened⟩] }
  | .get i =>
    match s.requests[i]? with
    | some r =>
      match r.stage with
      | .opened => some (s.setStage i r (read codec s.rows r))
      | _ => none
    | none => none
  | .perform i error =>
    match s.requests[i]? with
    | some r =>
      match r.stage with
      | .checked effect =>
        match effect.event r.row, error with
        | some _, some e => some (s.setStage i r (.done (.error e)))
        | some event, none => some { s.setStage i r .performed with log := s.log ++ [event] }
        | none, _ => none
      | _ => none
    | none => none
  | .write i now error =>
    match s.requests[i]? with
    | some r =>
      if r.stage.writes then
        match error with
        | some e => some (s.setStage i r (.done (.error e)))
        | none =>
          let rows := updateStatus r.row r.action.leaves r.resolver r.comment now s.rows
          let result := match rows.find? (·.id = r.row) with
            | some row => .ok row
            | none => .error r.action.vanished
          some { s.setStage i r (.done result) with rows := rows }
      else none
    | none => none

/-! ### What the log says -/

def Event.row : Event Op Inverse → RowId
  | .applied row _ | .inverted row _ => row

def Event.isApplied (id : RowId) : Event Op Inverse → Bool
  | .applied row _ => row = id
  | .inverted _ _ => false

def Event.isInverted (id : RowId) : Event Op Inverse → Bool
  | .applied _ _ => false
  | .inverted row _ => row = id

def St.applies (s : St V Op Inverse) (id : RowId) : ℕ := s.log.countP (Event.isApplied id)

def St.inverts (s : St V Op Inverse) (id : RowId) : ℕ := s.log.countP (Event.isInverted id)

structure Lawful (s : St V Op Inverse) (id : RowId) : Prop where
  applied : s.applies id ≤ 1
  rejected : ∀ q ∈ s.rows, q.id = id → q.status = .rejected → s.applies id = 0
  inverted : s.inverts id ≤ 1
  after : ∀ l e r, s.log = l ++ e :: r → e.isInverted id = true → ∃ e' ∈ l, e'.isApplied id = true

def Request.performing (id : RowId) (r : Request V Op Inverse) : Bool :=
  match r.stage with
  | .performed => r.row = id
  | _ => false

def St.performing (s : St V Op Inverse) (id : RowId) : ℕ := s.requests.countP (Request.performing id)

/-- The row has the status that the request has read, and no other request is between its effect and its
write. -/
def Undisturbed (s : St V Op Inverse) (r : Request V Op Inverse) : Prop :=
  (∀ q ∈ s.rows, q.id = r.row → q.status = r.action.takes) ∧ s.performing r.row = 0

def Untouched (s : St V Op Inverse) (id : RowId) : Prop :=
  (∀ q ∈ s.rows, q.id = id → q.status = .pending ∨ q.status = .rejected) ∧ s.performing id = 0

/-- **The condition on the steps.**  A request carries out its effect while it is undisturbed; it rejects
a row that is untouched; and the write that comes after an effect does not fail. -/
def Alone (s : St V Op Inverse) : Action V Op Inverse → Prop
  | .perform i none => ∀ r, s.requests[i]? = some r → Undisturbed s r
  | .write i _ none => ∀ r, s.requests[i]? = some r → r.stage = .performed ∨ Untouched s r.row
  | .write i _ (some _) => ∀ r, s.requests[i]? = some r → r.stage ≠ .performed
  | _ => True

section Moves

variable {codec : Codec V Op Inverse} {s s' : St V Op Inverse} {a : Action V Op Inverse}

inductive Moved (codec : Codec V Op Inverse) (s : St V Op Inverse) : Action V Op Inverse → St V Op Inverse → Prop
  | defer {id : RowId} (payload : V) (hid : id ∉ s.rows.map QueueRow.id) : Moved codec s (.defer id payload)
        { s with rows := s.rows ++ [.new id .gate .pending payload none] }
  | record {id : RowId} (op : Op) (payload : V) (inverse : Option V)
      (hid : id ∉ s.rows.map QueueRow.id) :
      Moved codec s (.record id op payload inverse)
        { s with rows := s.rows ++ [.new id .postHoc .autoApplied payload inverse]
                 log := s.log ++ [.applied id op] }
  | request (id : RowId) (action : ResolveAction) (edited : Option Op) (comment resolver : Option String) :
      Moved codec s (.request id action edited comment resolver)
        { s with requests := s.requests ++ [⟨id, action, edited, comment, resolver, .opened⟩] }
  | get {i : ℕ} {r : Request V Op Inverse} (hr : s.requests[i]? = some r) (hstage : r.stage = .opened) :
      Moved codec s (.get i) (s.setStage i r (read codec s.rows r))
  | failed {i : ℕ} {r : Request V Op Inverse} {effect : Effect Op Inverse} (e : String)
      (hr : s.requests[i]? = some r) (hstage : r.stage = .checked effect) :
      Moved codec s (.perform i (some e)) (s.setStage i r (.done (.error e)))
  | perform {i : ℕ} {r : Request V Op Inverse} {effect : Effect Op Inverse} {event : Event Op Inverse}
      (hr : s.requests[i]? = some r) (hstage : r.stage = .checked effect)
      (hevent : effect.event r.row = some event) :
      Moved codec s (.perform i none) { s.setStage i r .performed with log := s.log ++ [event] }
  | lost {i : ℕ} {r : Request V Op Inverse} (now : Timestamp) (e : String) (hr : s.requests[i]? = some r)
      (hwrites : r.stage.writes = true) :
      Moved codec s (.write i now (some e)) (s.setStage i r (.done (.error e)))
  | write {i : ℕ} {r : Request V Op Inverse} (now : Timestamp) (result : Except String (QueueRow V))
      (hr : s.requests[i]? = some r) (hwrites : r.stage.writes = true) :
      Moved codec s (.write i now none)
        { s.setStage i r (.done result) with
          rows := updateStatus r.row r.action.leaves r.resolver r.comment now s.rows }

theorem moved_of_step (h : step codec s a = some s') : Moved codec s a s' := by
  cases a with
  | defer id payload =>
    simp only [step] at h
    split_ifs at h with hid
    cases h
    exact .defer payload hid
  | record id op payload inverse =>
    simp only [step] at h
    split_ifs at h with hid
    cases h
    exact .record op payload inverse hid
  | request id action edited comment resolver =>
    cases h
    exact .request id action edited comment resolver
  | get i =>
    simp only [step] at h
    split at h
    · rename_i r hr
      split at h
      · rename_i hstage
        cases h
        exact .get hr hstage
      · cases h
    · cases h
  | perform i error =>
    simp only [step] at h
    split at h
    · rename_i r hr
      split at h
      · rename_i effect hstage
        split at h
        · rename_i event e hevent
          cases h
          exact .failed e hr hstage
        · rename_i event hevent
          cases h
          exact .perform hr hstage hevent
        · cases h
      · cases h
    · cases h
  | write i now error =>
    simp only [step] at h
    split at h
    · rename_i r hr
      split_ifs at h with hwrites
      split at h
      · rename_i e
        cases h
        exact .lost now e hr hwrites
      · cases h
        exact .write now _ hr hwrites
    · cases h

end Moves

/-! ### The invariant -/

def Status.applied : Status → ℕ
  | .pending | .rejected => 0
  | .approved | .autoApplied | .rolledBack => 1

def Status.inverted : Status → ℕ
  | .rolledBack => 1
  | .pending | .approved | .rejected | .autoApplied => 0

/-- The status of a row accounts for the log, together with the request that is still to write it. -/
structure RowOk (s : St V Op Inverse) (q : QueueRow V) : Prop where
  performing : s.performing q.id ≤ 1
  applies : s.applies q.id = q.status.applied + if q.status = .pending then s.performing q.id else 0
  inverts : s.inverts q.id = q.status.inverted + if q.status = .autoApplied then s.performing q.id else 0

def Effect.action : Effect Op Inverse → ResolveAction
  | .apply _ => .approve
  | .invert _ => .undo
  | .nothing => .reject

structure Inv (s : St V Op Inverse) : Prop where
  nodup : (s.rows.map QueueRow.id).Nodup
  rows : ∀ q ∈ s.rows, RowOk s q
  log : ∀ e ∈ s.log, e.row ∈ s.rows.map QueueRow.id
  checked : ∀ r ∈ s.requests, ∀ e, r.stage = .checked e → e.action = r.action ∧ r.row ∈ s.rows.map QueueRow.id
  performed : ∀ r ∈ s.requests, r.stage = .performed → r.action ≠ .reject ∧
    r.row ∈ s.rows.map QueueRow.id ∧ ∀ q ∈ s.rows, q.id = r.row → q.status = r.action.takes
  order : ∀ id, Ahead (fun e => e.isApplied id = true) (fun e => e.isInverted id = true) s.log

section Counting

variable {s s' : St V Op Inverse} {i : ℕ} {r : Request V Op Inverse}

theorem performing_set (hr : s.requests[i]? = some r) (stage : Stage V Op Inverse) (id : RowId) :
    (s.requests.set i { r with stage := stage }).countP (Request.performing id) + (r.performing id).toNat =
      s.performing id + (Request.performing id { r with stage := stage }).toNat := by
  obtain ⟨hi, rfl⟩ := List.getElem?_eq_some_iff.1 hr
  have hpos := boole_getElem_le_countP (p := Request.performing id) hi
  rw [countP_set hi, St.performing]
  have hbool : ∀ b : Bool, (if b = true then 1 else 0) = b.toNat := by decide
  simp only [hbool] at hpos ⊢
  omega

theorem performing_of_ne {stage : Stage V Op Inverse} (h : stage ≠ .performed) (r : Request V Op Inverse)
    (id : RowId) : Request.performing id { r with stage := stage } = false := by
  rw [Request.performing]
  split
  · exact absurd (by assumption) h
  · rfl

theorem performing_performed (r : Request V Op Inverse) (id : RowId) :
    Request.performing id { r with stage := (.performed : Stage V Op Inverse) } = decide (r.row = id) := rfl

theorem performing_same (hr : s.requests[i]? = some r) (h : r.stage ≠ .performed)
    {stage : Stage V Op Inverse} (hstage : stage ≠ .performed) (id : RowId) :
    (s.setStage i r stage).performing id = s.performing id := by
  have hset := performing_set hr stage id
  have hold : r.performing id = false := by
    have := performing_of_ne h r id
    exact this
  rw [hold, performing_of_ne hstage] at hset
  exact hset

theorem applies_append (log : List (Event Op Inverse)) (e : Event Op Inverse) (id : RowId) :
    (log ++ [e]).countP (Event.isApplied id) = log.countP (Event.isApplied id) + (e.isApplied id).toNat := by
  rw [countP_append, countP_singleton]
  cases e.isApplied id <;> rfl

theorem inverts_append (log : List (Event Op Inverse)) (e : Event Op Inverse) (id : RowId) :
    (log ++ [e]).countP (Event.isInverted id) = log.countP (Event.isInverted id) + (e.isInverted id).toNat := by
  rw [countP_append, countP_singleton]
  cases e.isInverted id <;> rfl

end Counting

section Steps

variable {codec : Codec V Op Inverse} {s s' : St V Op Inverse} {a : Action V Op Inverse}

theorem Inv.unknown (h : Inv s) {id : RowId} (hid : id ∉ s.rows.map QueueRow.id) :
    s.performing id = 0 ∧ s.applies id = 0 ∧ s.inverts id = 0 := by
  refine ⟨countP_eq_zero.2 fun r hr hp => hid ?_, countP_eq_zero.2 fun e he hp => hid ?_,
    countP_eq_zero.2 fun e he hp => hid ?_⟩
  · rw [Request.performing] at hp
    split at hp
    · rename_i hstage
      exact of_decide_eq_true hp ▸ (h.performed r hr hstage).2.1
    · cases hp
  · have hrow : e.row = id := by
      cases e with
      | applied row op => exact of_decide_eq_true hp
      | inverted row inv => cases hp
    exact hrow ▸ h.log e he
  · have hrow : e.row = id := by
      cases e with
      | applied row op => cases hp
      | inverted row inv => exact of_decide_eq_true hp
    exact hrow ▸ h.log e he

theorem Inv.setStage (h : Inv s) {i : ℕ} {r : Request V Op Inverse} {stage : Stage V Op Inverse}
    (hr : s.requests[i]? = some r) (hold : r.stage ≠ .performed) (hnew : stage ≠ .performed)
    (hchecked : ∀ e, stage = .checked e → e.action = r.action ∧ r.row ∈ s.rows.map QueueRow.id) :
    Inv (s.setStage i r stage) := by
  refine ⟨h.nodup, fun q hq => ?_, h.log, fun r' hr' e he => ?_, fun r' hr' hstage => ?_, h.order⟩
  · have hsame := performing_same hr hold hnew q.id
    exact ⟨hsame ▸ (h.rows q hq).performing, hsame ▸ (h.rows q hq).applies, hsame ▸ (h.rows q hq).inverts⟩
  · rcases mem_or_eq_of_mem_set hr' with hr' | rfl
    · exact h.checked r' hr' e he
    · exact hchecked e he
  · rcases mem_or_eq_of_mem_set hr' with hr' | rfl
    · exact h.performed r' hr' hstage
    · exact absurd hstage hnew

theorem Inv.newRow (h : Inv s) {row : QueueRow V} {log : List (Event Op Inverse)}
    (hid : row.id ∉ s.rows.map QueueRow.id) (hrows : s'.rows = s.rows ++ [row])
    (hrequests : s'.requests = s.requests) (hlog : s'.log = s.log ++ log)
    (hnew : ∀ e ∈ log, ∃ op, e = .applied row.id op) (happlied : log.length = row.status.applied)
    (hinverted : row.status.inverted = 0) : Inv s' := by
  have hids : s'.rows.map QueueRow.id = s.rows.map QueueRow.id ++ [row.id] := by
    rw [hrows, map_append, map_singleton]
  have hperforming : ∀ id, s'.performing id = s.performing id := fun id => by
    rw [St.performing, St.performing, hrequests]
  have hnone : ∀ id, log.countP (Event.isInverted id) = 0 := fun id => by
    refine countP_eq_zero.2 fun e he => ?_
    obtain ⟨op, rfl⟩ := hnew e he
    exact nofun
  have hinverts : ∀ id, s'.inverts id = s.inverts id := fun id => by
    rw [St.inverts, St.inverts, hlog, countP_append, hnone, Nat.add_zero]
  have happlies : ∀ id, id ≠ row.id → s'.applies id = s.applies id := fun id hne => by
    have hzero : log.countP (Event.isApplied id) = 0 := by
      refine countP_eq_zero.2 fun e he hp => ?_
      obtain ⟨op, rfl⟩ := hnew e he
      exact hne (of_decide_eq_true hp).symm
    rw [St.applies, St.applies, hlog, countP_append, hzero, Nat.add_zero]
  have hall : log.countP (Event.isApplied row.id) = log.length := by
    refine countP_eq_length.2 fun e he => ?_
    obtain ⟨op, rfl⟩ := hnew e he
    exact decide_eq_true rfl
  obtain ⟨hunknown, hunapplied, huninverted⟩ := h.unknown hid
  refine ⟨?_, fun q hq => ?_, fun e he => ?_, fun r hr e he => ?_, fun r hr hstage => ?_, fun id => ?_⟩
  · rw [hids]
    exact nodup_append.2 ⟨h.nodup, nodup_singleton _, fun x hx y hy heq =>
      hid (mem_singleton.1 hy ▸ heq ▸ hx)⟩
  · rw [hrows] at hq
    rcases mem_append.1 hq with hq | hq
    · have hne : q.id ≠ row.id := fun heq => hid (heq ▸ mem_map_of_mem hq)
      have hold := h.rows q hq
      refine ⟨?_, ?_, ?_⟩
      · rw [hperforming]
        exact hold.performing
      · rw [happlies q.id hne, hperforming]
        exact hold.applies
      · rw [hinverts, hperforming]
        exact hold.inverts
    · rw [mem_singleton.1 hq]
      refine ⟨?_, ?_, ?_⟩
      · rw [hperforming, hunknown]
        exact Nat.zero_le 1
      · rw [St.applies, hlog, countP_append, hall, happlied, hperforming, hunknown]
        rw [St.applies] at hunapplied
        rw [hunapplied, ite_self]
        omega
      · rw [hinverts, huninverted, hperforming, hunknown, hinverted, ite_self]
  · rw [hlog] at he
    rw [hids]
    rcases mem_append.1 he with he | he
    · exact mem_append_left _ (h.log e he)
    · obtain ⟨op, rfl⟩ := hnew e he
      exact mem_append_right _ mem_cons_self
  · rw [hrequests] at hr
    rw [hids]
    exact (h.checked r hr e he).imp_right (mem_append_left _)
  · rw [hrequests] at hr
    obtain ⟨haction, hmem, hstatus⟩ := h.performed r hr hstage
    rw [hids]
    refine ⟨haction, mem_append_left _ hmem, fun q hq hqid => ?_⟩
    rw [hrows] at hq
    rcases mem_append.1 hq with hq | hq
    · exact hstatus q hq hqid
    · rw [mem_singleton.1 hq] at hqid
      exact absurd (hqid ▸ hmem) hid
  · rw [hlog, ahead_append]
    refine ⟨h.order id, .inr (Precedence.ahead_of_forall_not fun e he hp => ?_)⟩
    obtain ⟨op, rfl⟩ := hnew e he
    cases hp

theorem event_cases {effect : Effect Op Inverse} {row : RowId} {event : Event Op Inverse}
    (h : effect.event row = some event) : (∃ op, effect = .apply op ∧ event = .applied row op) ∨
      ∃ inv, effect = .invert inv ∧ event = .inverted row inv := by
  cases effect with
  | apply op => exact .inl ⟨op, rfl, (Option.some_inj.1 h).symm⟩
  | invert inv => exact .inr ⟨inv, rfl, (Option.some_inj.1 h).symm⟩
  | nothing => cases h

theorem Inv.perform (h : Inv s) {i : ℕ} {r : Request V Op Inverse} {effect : Effect Op Inverse}
    {event : Event Op Inverse} (hr : s.requests[i]? = some r) (hstage : r.stage = .checked effect)
    (hevent : effect.event r.row = some event) (halone : Undisturbed s r) :
    Inv { s.setStage i r .performed with log := s.log ++ [event] } := by
  obtain ⟨hstatus, hnone⟩ := halone
  obtain ⟨haction, hrow⟩ := h.checked r (mem_of_getElem? hr) effect hstage
  have hperforming : ∀ id, (s.requests.set i { r with stage := .performed }).countP
      (Request.performing id) = s.performing id + (decide (r.row = id)).toNat := fun id => by
    have hset := performing_set hr .performed id
    have hold : r.performing id = false := by
      rw [Request.performing, hstage]
    rw [hold, performing_performed] at hset
    exact hset
  refine ⟨h.nodup, fun q hq => ?_, fun e he => ?_, fun r' hr' e he => ?_, fun r' hr' hstage' => ?_, fun id => ?_⟩
  · have hold := h.rows q hq
    have happlies := applies_append s.log event q.id
    have hinverts := inverts_append s.log event q.id
    have hset := hperforming q.id
    change RowOk ⟨s.rows, s.requests.set i { r with stage := .performed }, s.log ++ [event]⟩ q
    by_cases hq' : q.id = r.row
    · -- the row that the request is about
      have hqs := hstatus q hq hq'
      have h₁ := hold.performing
      have h₂ := hold.applies
      have h₃ := hold.inverts
      have h₄ : s.performing q.id = 0 := hq' ▸ hnone
      rcases event_cases hevent with ⟨op, rfl, rfl⟩ | ⟨inv, rfl, rfl⟩
      · have hpending : q.status = .pending := by rw [hqs, ← haction]; rfl
        rw [hpending] at h₂ h₃
        simp only [Status.applied, Status.inverted, reduceCtorEq, if_true, if_false] at h₂ h₃
        simp only [Event.isApplied, Event.isInverted, hq', decide_true, Bool.toNat_true,
          Bool.toNat_false] at happlies hinverts hset
        rw [hq'] at h₂ h₃ h₄
        rw [St.applies] at h₂
        rw [St.inverts] at h₃
        constructor <;> simp only [St.performing, St.applies, St.inverts, hpending, Status.applied,
          Status.inverted, reduceCtorEq, if_true, if_false, hq'] <;> omega
      · have hauto : q.status = .autoApplied := by rw [hqs, ← haction]; rfl
        rw [hauto] at h₂ h₃
        simp only [Status.applied, Status.inverted, reduceCtorEq, if_true, if_false] at h₂ h₃
        simp only [Event.isApplied, Event.isInverted, hq', decide_true, Bool.toNat_true,
          Bool.toNat_false] at happlies hinverts hset
        rw [hq'] at h₂ h₃ h₄
        rw [St.applies] at h₂
        rw [St.inverts] at h₃
        constructor <;> simp only [St.performing, St.applies, St.inverts, hauto, Status.applied,
          Status.inverted, reduceCtorEq, if_true, if_false, hq'] <;> omega
    · have hne : r.row ≠ q.id := fun heq => hq' heq.symm
      have hother : event.isApplied q.id = false ∧ event.isInverted q.id = false := by
        rcases event_cases hevent with ⟨op, rfl, rfl⟩ | ⟨inv, rfl, rfl⟩
        · exact ⟨decide_eq_false hne, rfl⟩
        · exact ⟨rfl, decide_eq_false hne⟩
      rw [hother.1] at happlies
      rw [hother.2] at hinverts
      rw [decide_eq_false hne] at hset
      simp only [Bool.toNat_false, Nat.add_zero] at happlies hinverts hset
      refine ⟨?_, ?_, ?_⟩
      · rw [St.performing, hset]
        exact hold.performing
      · rw [St.applies, St.performing, happlies, hset]
        exact hold.applies
      · rw [St.inverts, St.performing, hinverts, hset]
        exact hold.inverts
  · rcases mem_append.1 he with he | he
    · exact h.log e he
    · have heq : e.row = r.row := by
        rw [mem_singleton.1 he]
        rcases event_cases hevent with ⟨op, rfl, rfl⟩ | ⟨inv, rfl, rfl⟩ <;> rfl
      exact heq ▸ hrow
  · rcases mem_or_eq_of_mem_set hr' with hr' | rfl
    · exact h.checked r' hr' e he
    · cases he
  · rcases mem_or_eq_of_mem_set hr' with hr' | rfl
    · exact h.performed r' hr' hstage'
    · refine ⟨fun hreject => ?_, hrow, hstatus⟩
      rcases event_cases hevent with ⟨op, rfl, rfl⟩ | ⟨inv, rfl, rfl⟩
      · cases haction.trans hreject
      · cases haction.trans hreject
  · rw [ahead_append]
    refine ⟨h.order id, ?_⟩
    rcases event_cases hevent with ⟨op, rfl, rfl⟩ | ⟨inv, rfl, rfl⟩
    · exact .inr ⟨nofun, .inr trivial⟩
    · by_cases hid : r.row = id
      · -- the operation has been applied before it is undone
        obtain ⟨q, hq, hqid⟩ := mem_map.1 hrow
        have hauto : q.status = .autoApplied := by rw [hstatus q hq hqid, ← haction]; rfl
        have hone := (h.rows q hq).applies
        rw [hauto, hqid, hid] at hone
        have hpos : 0 < s.applies id := by
          rw [hone]
          exact Nat.zero_lt_one
        exact .inl (countP_pos_iff.1 hpos)
      · exact .inr ⟨fun hp => hid (of_decide_eq_true hp), .inr trivial⟩

theorem mem_updateStatus {id : RowId} {status : Status} {resolver comment : Option String}
    {now : Timestamp} {rows : List (QueueRow V)} {q : QueueRow V}
    (h : q ∈ updateStatus id status resolver comment now rows) :
    (∃ q₀ ∈ rows, q₀.id = id ∧ q.id = id ∧ q.status = status) ∨ q ∈ rows ∧ q.id ≠ id := by
  obtain ⟨q₀, hq₀, ⟨hid, rfl⟩ | ⟨hid, rfl⟩⟩ := Rows.mem_updateWhere.1 h
  · have heq : q₀.id = id := of_decide_eq_true hid
    exact .inl ⟨q₀, hq₀, heq, heq, rfl⟩
  · exact .inr ⟨hq₀, of_decide_eq_false hid⟩

/-- The account of a row after its status has been written: `n` requests were performing on it before,
and none is now. -/
theorem RowOk.write {q₀ q : QueueRow V} {action : ResolveAction} (h : RowOk s q₀) (hid : q.id = q₀.id)
    (hstatus₀ : q₀.status = action.takes ∨ action = .reject ∧ q₀.status = .rejected)
    (hstatus : q.status = action.leaves)
    (hone : s.performing q₀.id = if action = .reject then 0 else 1) (hnone : s'.performing q.id = 0)
    (hlog : s'.log = s.log) : RowOk s' q := by
  have happlies := h.applies
  have hinverts := h.inverts
  have hsame : s'.applies q.id = s.applies q₀.id ∧ s'.inverts q.id = s.inverts q₀.id := by
    rw [St.applies, St.inverts, hlog, hid]
    exact ⟨rfl, rfl⟩
  rcases hstatus₀ with hstatus₀ | ⟨rfl, hstatus₀⟩
  · rw [hone, hstatus₀] at happlies hinverts
    refine ⟨hnone ▸ Nat.zero_le 1, ?_, ?_⟩
    · rw [hsame.1, happlies, hstatus, hnone]
      cases action <;> rfl
    · rw [hsame.2, hinverts, hstatus, hnone]
      cases action <;> rfl
  · rw [hone, hstatus₀] at happlies hinverts
    refine ⟨hnone ▸ Nat.zero_le 1, ?_, ?_⟩
    · rw [hsame.1, happlies, hstatus, hnone]
      rfl
    · rw [hsame.2, hinverts, hstatus, hnone]
      rfl

theorem Inv.write (h : Inv s) {i : ℕ} {r : Request V Op Inverse} {now : Timestamp}
    {result : Except String (QueueRow V)} (hr : s.requests[i]? = some r)
    (hwrites : r.stage.writes = true) (halone : r.stage = .performed ∨ Untouched s r.row) :
    Inv { s.setStage i r (.done result) with
      rows := updateStatus r.row r.action.leaves r.resolver r.comment now s.rows } := by
  have hids : (updateStatus r.row r.action.leaves r.resolver r.comment now s.rows).map QueueRow.id =
      s.rows.map QueueRow.id := Rows.map_key_updateWhere fun _ => rfl
  have hmem := mem_of_getElem? hr
  have hset := fun id => performing_set hr (.done result) id
  -- what the request has done, and that nobody else has
  obtain ⟨hrow, hstatus, hone⟩ : r.row ∈ s.rows.map QueueRow.id ∧ (∀ q ∈ s.rows, q.id = r.row →
        q.status = r.action.takes ∨ r.action = .reject ∧ q.status = .rejected) ∧
      s.performing r.row = if r.action = .reject then 0 else 1 := by
    rcases hstage : r.stage with _ | effect | _ | res
    · rw [hstage] at hwrites
      cases hwrites
    · cases effect with
      | nothing =>
        obtain ⟨haction, hrow⟩ := h.checked r hmem _ hstage
        have hreject : r.action = .reject := haction.symm
        rcases halone with hperformed | ⟨hstatus, hnone⟩
        · rw [hstage] at hperformed
          cases hperformed
        · refine ⟨hrow, fun q hq hid => ?_, ?_⟩
          · rw [hreject]
            exact (hstatus q hq hid).imp_right fun h => ⟨rfl, h⟩
          · rw [hnone, if_pos hreject]
      | apply op | invert inv =>
        rw [hstage] at hwrites
        cases hwrites
    · obtain ⟨haction, hrow, hstatus⟩ := h.performed r hmem hstage
      obtain ⟨q, hq, hqid⟩ := mem_map.1 hrow
      refine ⟨hrow, fun q hq hid => .inl (hstatus q hq hid), ?_⟩
      have hpos : 0 < s.performing r.row := by
        refine countP_pos_iff.2 ⟨r, hmem, ?_⟩
        rw [Request.performing, hstage]
        exact decide_eq_true rfl
      have hle := (h.rows q hq).performing
      rw [hqid] at hle
      rw [if_neg haction]
      omega
    · rw [hstage] at hwrites
      cases hwrites
  have hperforming : ∀ id, (s.requests.set i { r with stage := .done result }).countP
      (Request.performing id) = if id = r.row then 0 else s.performing id := by
    intro id
    have hid := hset id
    rw [@performing_of_ne V Op Inverse (.done result) nofun r id] at hid
    by_cases hidr : id = r.row
    · rw [if_pos hidr]
      subst hidr
      have hcount : (r.performing r.row).toNat = if r.action = .reject then 0 else 1 := by
        rcases hstage : r.stage with _ | effect | _ | res
        · rw [hstage] at hwrites
          cases hwrites
        · cases effect with
          | nothing =>
            rw [if_pos (show r.action = .reject from ((h.checked r hmem _ hstage).1).symm), Request.performing, hstage]
            rfl
          | apply op | invert inv =>
            rw [hstage] at hwrites
            cases hwrites
        · rw [if_neg (h.performed r hmem hstage).1, Request.performing, hstage]
          simp
        · rw [hstage] at hwrites
          cases hwrites
      rw [hcount, hone] at hid
      simpa using hid
    · rw [if_neg hidr]
      have hold : r.performing id = false := by
        rw [Request.performing]
        split
        · exact decide_eq_false fun heq => hidr heq.symm
        · rfl
      rw [hold] at hid
      exact hid
  refine ⟨hids ▸ h.nodup, fun q hq => ?_, fun e he => hids ▸ h.log e he, fun r' hr' e he => ?_,
    fun r' hr' hstage => ?_, h.order⟩
  · rcases mem_updateStatus hq with ⟨q₀, hq₀, hid₀, hid, hqs⟩ | ⟨hold, hne⟩
    · refine (h.rows q₀ hq₀).write (hid.trans hid₀.symm) (hstatus q₀ hq₀ hid₀) hqs (hid₀ ▸ hone) ?_ rfl
      exact (hperforming q.id).trans (if_pos hid)
    · have hsame : St.performing { s.setStage i r (.done result) with
          rows := updateStatus r.row r.action.leaves r.resolver r.comment now s.rows } q.id =
          s.performing q.id := (hperforming q.id).trans (if_neg hne)
      have hq := h.rows q hold
      exact ⟨hsame ▸ hq.performing, hsame ▸ hq.applies, hsame ▸ hq.inverts⟩
  · rcases mem_or_eq_of_mem_set hr' with hr' | rfl
    · exact hids ▸ h.checked r' hr' e he
    · cases he
  · rcases mem_or_eq_of_mem_set hr' with hold | rfl
    · obtain ⟨haction, hrow', hstatus'⟩ := h.performed r' hold hstage
      refine ⟨haction, hids ▸ hrow', fun q hq hqid => ?_⟩
      rcases mem_updateStatus hq with ⟨q₀, -, -, hid, -⟩ | ⟨hq, -⟩
      · -- nobody else is performing on the row
        have hzero := (hperforming r.row).trans (if_pos rfl)
        refine absurd (countP_eq_zero.1 hzero r' hr') ?_
        rw [Request.performing, hstage]
        simp [← hqid, hid]
      · exact hstatus' q hq hqid
    · cases hstage

theorem check_of_read {rows : List (QueueRow V)} {r : Request V Op Inverse} {e : Effect Op Inverse}
    (h : read codec rows r = .checked e) : e.action = r.action ∧ r.row ∈ rows.map QueueRow.id := by
  rw [read] at h
  split at h
  · cases h
  · rename_i row hrow
    have hid : row.id = r.row := by simpa using find?_some hrow
    split at h
    · rename_i effect hcheck
      cases h
      refine ⟨?_, hid ▸ mem_map_of_mem (mem_of_find?_eq_some hrow)⟩
      cases haction : r.action with
      | approve =>
        simp only [haction, check] at hcheck
        split_ifs at hcheck
        split at hcheck
        · cases hcheck
          rfl
        · cases hop : codec.payload row.payload with
          | error m => rw [hop] at hcheck; cases hcheck
          | ok op => rw [hop] at hcheck; cases hcheck; rfl
      | reject =>
        simp only [haction, check] at hcheck
        split_ifs at hcheck
        cases hcheck
        rfl
      | undo =>
        simp only [haction, check] at hcheck
        split_ifs at hcheck
        split at hcheck
        · cases hcheck
        · rename_i v hv
          cases hinv : codec.inverse v with
          | error m => rw [hinv] at hcheck; cases hcheck
          | ok inv => rw [hinv] at hcheck; cases hcheck; rfl
    · cases h

theorem Inv.step (h : Inv s) (hok : Alone s a) (hmove : Moved codec s a s') : Inv s' := by
  cases hmove with
  | defer payload hid => exact h.newRow hid rfl rfl (append_nil _).symm nofun rfl rfl
  | @record id op payload inverse hid =>
    have hnew : ∀ e ∈ [Event.applied id op], ∃ op', e = (.applied id op' : Event Op Inverse) :=
      fun e he => ⟨op, mem_singleton.1 he⟩
    exact h.newRow hid rfl rfl rfl hnew rfl rfl
  | request id action edited comment resolver =>
    refine ⟨h.nodup, fun q hq => ?_, h.log, fun r hr e he => ?_, fun r hr hstage => ?_, h.order⟩
    · have hsame : (s.requests ++ [(⟨id, action, edited, comment, resolver, .opened⟩ :
          Request V Op Inverse)]).countP (Request.performing q.id) = s.performing q.id := by
        rw [countP_append]
        rfl
      have hq := h.rows q hq
      refine ⟨?_, ?_, ?_⟩
      · rw [St.performing, hsame]
        exact hq.performing
      · rw [St.performing, hsame]
        exact hq.applies
      · rw [St.performing, hsame]
        exact hq.inverts
    · rcases mem_append.1 hr with hr | hr
      · exact h.checked r hr e he
      · rw [mem_singleton.1 hr] at he
        cases he
    · rcases mem_append.1 hr with hr | hr
      · exact h.performed r hr hstage
      · rw [mem_singleton.1 hr] at hstage
        cases hstage
  | @get i r hr hstage =>
    refine h.setStage hr (by rw [hstage]; exact nofun) ?_ fun e he => ?_
    · rw [read]
      split
      · exact nofun
      · split <;> exact nofun
    · exact check_of_read he
  | @failed i r effect e hr hstage =>
    exact h.setStage hr (by rw [hstage]; exact nofun) nofun nofun
  | perform hr hstage hevent => exact h.perform hr hstage hevent (hok _ hr)
  | @lost i r now e hr hwrites => exact h.setStage hr (hok r hr) nofun nofun
  | write now result hr hwrites => exact h.write hr hwrites (hok _ hr)

end Steps

/-! ### Runs -/

def emptyQueue : St V Op Inverse := ⟨[], [], []⟩

theorem inv_empty : Inv (emptyQueue : St V Op Inverse) where
  nodup := nodup_nil
  rows := fun _ hq => absurd hq not_mem_nil
  log := fun _ he => absurd he not_mem_nil
  checked := fun _ hr => absurd hr not_mem_nil
  performed := fun _ hr => absurd hr not_mem_nil
  order := fun _ => trivial

theorem Inv.lawful {s : St V Op Inverse} (h : Inv s) (id : RowId) : Lawful s id := by
  have hafter : ∀ l e r, s.log = l ++ e :: r → e.isInverted id = true →
      ∃ e' ∈ l, e'.isApplied id = true := Precedence.ahead_iff.1 (h.order id)
  by_cases hid : id ∈ s.rows.map QueueRow.id
  · obtain ⟨q, hq, rfl⟩ := mem_map.1 hid
    have hone := (h.rows q hq).performing
    have happlies := (h.rows q hq).applies
    have hinverts := (h.rows q hq).inverts
    refine ⟨?_, fun p hp hpid hrejected => ?_, ?_, hafter⟩
    · cases hstatus : q.status <;> rw [hstatus] at happlies <;>
        simp only [Status.applied, reduceCtorEq, if_true, if_false] at happlies <;> omega
    · have hp := (h.rows p hp).applies
      rw [hrejected, hpid] at hp
      exact hp
    · cases hstatus : q.status <;> rw [hstatus] at hinverts <;>
        simp only [Status.inverted, reduceCtorEq, if_true, if_false] at hinverts <;> omega
  · obtain ⟨-, happlies, hinverts⟩ := h.unknown hid
    refine ⟨happlies ▸ Nat.zero_le 1, fun p hp hpid _ => ?_, hinverts ▸ Nat.zero_le 1, hafter⟩
    exact absurd (hpid ▸ mem_map_of_mem hp) hid

/-- **What the log says of every row, in every run that meets the condition.** -/
theorem lawful_of_alone {codec : Codec V Op Inverse} {s : St V Op Inverse}
    (h : Runs.Reach (step codec) Alone emptyQueue s) (id : RowId) : Lawful s id :=
  (h.inv inv_empty fun _ _ _ hinv hok hstep => hinv.step hok (moved_of_step hstep)).lawful id

def AllDone (s : St V Op Inverse) : Prop := ∀ r ∈ s.requests, ∃ result, r.stage = .done result

def plain : Codec ℕ ℕ ℕ := ⟨.ok, .ok⟩

theorem of_request {s : St V Op Inverse} {i : ℕ} {r₀ : Request V Op Inverse}
    {P : Request V Op Inverse → Prop} (h : s.requests[i]? = some r₀) (hP : P r₀) :
    ∀ r, s.requests[i]? = some r → P r := by
  intro r hr
  rw [h] at hr
  exact Option.some_inj.1 hr ▸ hP

/-- An approval, and another that comes when the first has been written. -/
theorem lawful_of_alone_approve : ∃ s, Runs.Reach (step plain) Alone emptyQueue s ∧ AllDone s ∧
    s.applies 1 = 1 ∧ Lawful s 1 := by
  have h₁ := (Runs.Reach.init : Runs.Reach (step plain) Alone emptyQueue emptyQueue).step
    (Action.defer 1 7) trivial rfl
  have h₂ := h₁.step (Action.request 1 .approve none none none) trivial rfl
  have h₃ := h₂.step (Action.get 0) trivial rfl
  have h₄ := h₃.step (Action.perform 0 none)
    (of_request rfl ⟨forall_mem_singleton.2 fun _ => rfl, rfl⟩) rfl
  have h₅ := h₄.step (Action.write 0 100 none) (of_request rfl (.inl rfl)) rfl
  have h₆ := h₅.step (Action.request 1 .approve none none none) trivial rfl
  have h := h₆.step (Action.get 1) trivial rfl
  refine ⟨_, h, ?_, rfl, lawful_of_alone h 1⟩
  exact forall_mem_cons.2 ⟨⟨_, rfl⟩, forall_mem_singleton.2 ⟨_, rfl⟩⟩

/-- **Two requests that have read the same status.**  Both approvals apply the operation; a row is rejected
in the end although its operation has been applied; and both undo what was done once. -/
theorem approved_twice : (∃ s, Runs.Reach (step plain) Runs.Free emptyQueue s ∧ AllDone s ∧ s.applies 1 = 2) ∧
      (∃ s, Runs.Reach (step plain) Runs.Free emptyQueue s ∧ AllDone s ∧
        s.rows.map QueueRow.status = [.rejected] ∧ s.applies 1 = 1) ∧
      ∃ s, Runs.Reach (step plain) Runs.Free emptyQueue s ∧ AllDone s ∧ s.inverts 1 = 2 := by
  have h₀ : Runs.Reach (step plain) Runs.Free emptyQueue emptyQueue := .init
  refine ⟨?_, ?_, ?_⟩
  · have h := h₀.run [.defer 1 7, .request 1 .approve none none none,
      .request 1 .approve none none none, .get 0, .get 1, .perform 0 none, .perform 1 none,
      .write 0 100 none, .write 1 101 none] rfl
    exact ⟨_, h, forall_mem_cons.2 ⟨⟨_, rfl⟩, forall_mem_singleton.2 ⟨_, rfl⟩⟩, rfl⟩
  · have h := h₀.run [.defer 1 7, .request 1 .approve none none none,
      .request 1 .reject none none none, .get 0, .get 1, .perform 0 none, .write 0 100 none,
      .write 1 101 none] rfl
    exact ⟨_, h, forall_mem_cons.2 ⟨⟨_, rfl⟩, forall_mem_singleton.2 ⟨_, rfl⟩⟩, rfl, rfl⟩
  · have h := h₀.run [.record 1 7 7 (some 8), .request 1 .undo none none none,
      .request 1 .undo none none none, .get 0, .get 1, .perform 0 none, .perform 1 none,
      .write 0 100 none, .write 1 101 none] rfl
    exact ⟨_, h, forall_mem_cons.2 ⟨⟨_, rfl⟩, forall_mem_singleton.2 ⟨_, rfl⟩⟩, rfl⟩

end Approvals
