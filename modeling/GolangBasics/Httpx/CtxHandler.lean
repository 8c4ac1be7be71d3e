import GolangBasics.Slices

/-! `ctxHandler` of `libs/httpx`, which puts the ids of a context at the top level of a record.
The operations after the first group are kept in a slice and replayed for each record; the
handlers that are derived from one another have their slices in one memory. -/
namespace GolangBasics.Httpx
open Slices List

/-- A tree of attributes: `slog.Attr`. -/
inductive Attr where
  | leaf (key value : String)
  | group (key : String) (attrs : List Attr)

/-- What has been asked of a handler since it was new. -/
inductive Scope where
  | attrs (attrs : List Attr)
  | group (name : String)

/-- The documented output for a record: attributes go into the innermost open group, and a
group without attributes is left out. -/
def render : List Scope → List Attr → List Attr
  | [], record => record
  | .attrs attrs :: scopes, record => attrs ++ render scopes record
  | .group name :: scopes, record =>
    match render scopes record with
    | [] => []
    | inside => [.group name inside]

/-- A `slog.Handler` that keeps to what is documented of its methods. -/
structure InnerHandler (H : Type) where
  fresh : H
  withAttrs : H → List Attr → H
  withGroup : H → String → H
  handle : H → List Attr → List Attr
  scopes : H → List Scope
  scopes_fresh : scopes fresh = []
  scopes_withAttrs : ∀ h attrs, scopes (withAttrs h attrs) = scopes h ++ [.attrs attrs]
  scopes_withGroup : ∀ h name,
    scopes (withGroup h name) = if name = "" then scopes h else scopes h ++ [.group name]
  handle_eq : ∀ h record, handle h record = render (scopes h) record

structure LogContext where
  span : Option (String × String) := none
  requestId : String := ""

def LogContext.ids (ctx : LogContext) : List Attr :=
  (match ctx.span with
  | some (traceId, spanId) => [.leaf "trace_id" traceId, .leaf "span_id" spanId]
  | none => []) ++
  if ctx.requestId ≠ "" then [.leaf "request_id" ctx.requestId] else []

structure HandlerOp where
  group : String := ""
  attrs : List Attr := []

structure CtxHandler (H : Type) where
  inner : H
  ops : Slice

namespace CtxHandler
variable {H : Type} (I : InnerHandler H) (spare : Nat → List HandlerOp)

def addOp (m : Memory HandlerOp) (ops : Slice) (op : HandlerOp) : Slice × Memory HandlerOp :=
  let (copy, m) := m.append spare .nil (m.read ops)
  m.append spare copy [op]

def withAttrs (m : Memory HandlerOp) (h : CtxHandler H) (attrs : List Attr) :
    CtxHandler H × Memory HandlerOp :=
  if h.ops.len = 0 then (⟨I.withAttrs h.inner attrs, .nil⟩, m)
  else
    let (ops, m) := addOp spare m h.ops { attrs }
    (⟨h.inner, ops⟩, m)

def withGroup (m : Memory HandlerOp) (h : CtxHandler H) (name : String) :
    CtxHandler H × Memory HandlerOp :=
  if name = "" then (h, m)
  else
    let (ops, m) := addOp spare m h.ops { group := name }
    (⟨h.inner, ops⟩, m)

def replay (inner : H) (op : HandlerOp) : H :=
  if op.group ≠ "" then I.withGroup inner op.group else I.withAttrs inner op.attrs

def handle (m : Memory HandlerOp) (h : CtxHandler H) (ctx : LogContext) (record : List Attr) :
    List Attr :=
  let attrs := ctx.ids
  if h.ops.len = 0 then
    I.handle h.inner (if 0 < attrs.length then record ++ attrs else record)
  else
    let inner := if 0 < attrs.length then I.withAttrs h.inner attrs else h.inner
    I.handle ((m.read h.ops).foldl (replay I) inner) record

end CtxHandler

inductive Derivation where
  | withAttrs (attrs : List Attr)
  | withGroup (name : String)

section
variable {H : Type} (I : InnerHandler H) (spare : Nat → List HandlerOp)

def InnerHandler.derive (h : H) : Derivation → H
  | .withAttrs attrs => I.withAttrs h attrs
  | .withGroup name => I.withGroup h name

def CtxHandler.derive (m : Memory HandlerOp) (h : CtxHandler H) :
    Derivation → CtxHandler H × Memory HandlerOp
  | .withAttrs attrs => h.withAttrs I spare m attrs
  | .withGroup name => h.withGroup spare m name

end

/-- The handlers so far, each with the calls that have led to it. -/
structure Loggers (H : Type) where
  memory : Memory HandlerOp
  handlers : List (CtxHandler H × List Derivation)

namespace Loggers
variable {H : Type} (I : InnerHandler H) (spare : Nat → List HandlerOp)

def start (memory : Memory HandlerOp) : Loggers H := ⟨memory, [(⟨I.fresh, .nil⟩, [])]⟩

def derive (l : Loggers H) (i : Nat) (d : Derivation) : Loggers H :=
  match l.handlers[i]? with
  | none => l
  | some (h, calls) =>
    let (h', memory) := h.derive I spare l.memory d
    ⟨memory, l.handlers ++ [(h', calls ++ [d])]⟩

def run (l : Loggers H) (derivations : List (Nat × Derivation)) : Loggers H :=
  derivations.foldl (fun l x => l.derive I spare x.1 x.2) l

end Loggers

def HandlerOp.scope (op : HandlerOp) : Scope :=
  if op.group ≠ "" then .group op.group else .attrs op.attrs

def Scope.own : Scope → List Attr
  | .attrs as => as
  | .group _ => []

theorem render_append {front : List Scope} (h : ∀ s ∈ front, ∃ attrs, s = .attrs attrs)
    (back : List Scope) (record : List Attr) :
    render (front ++ back) record = front.flatMap Scope.own ++ render back record := by
  induction front with
  | nil => rfl
  | cons s front ih =>
    obtain ⟨⟨attrs, rfl⟩, hrest⟩ := forall_mem_cons.mp h
    rw [cons_append, render, ih hrest, flatMap_cons, append_assoc]
    rfl

section
variable {H : Type} (I : InnerHandler H)

theorem scopes_replay (inner : H) (op : HandlerOp) :
    I.scopes (CtxHandler.replay I inner op) = I.scopes inner ++ [op.scope] := by
  unfold CtxHandler.replay HandlerOp.scope
  split_ifs with h
  · rw [I.scopes_withGroup, if_neg h]
  · exact I.scopes_withAttrs inner op.attrs

theorem scopes_foldl_replay (inner : H) (ops : List HandlerOp) :
    I.scopes (ops.foldl (CtxHandler.replay I) inner) = I.scopes inner ++ ops.map HandlerOp.scope := by
  induction ops generalizing inner with
  | nil => exact (append_nil _).symm
  | cons op ops ih =>
    rw [foldl_cons, ih, scopes_replay, append_assoc]
    rfl

end

theorem addOp_spec (spare : Nat → List HandlerOp) (m : Memory HandlerOp) (ops : Slice)
    (op : HandlerOp) :
    (CtxHandler.addOp spare m ops op).2.Valid (CtxHandler.addOp spare m ops op).1 ∧
      (CtxHandler.addOp spare m ops op).2.read (CtxHandler.addOp spare m ops op).1 =
        m.read ops ++ [op] ∧
      m.Extends m.next (CtxHandler.addOp spare m ops op).2 := by
  -- the first append starts from the nil slice, so both write arrays of their own
  have hnil : Slice.Above m.next .nil := fun h => absurd h (lt_irrefl 0)
  obtain ⟨hvalid, hread, habove, hextends⟩ :=
    append_spec spare (valid_nil m) (m.read ops) hnil le_rfl
  obtain ⟨hvalid', hread', -, hextends'⟩ := append_spec spare hvalid [op] habove hextends.next
  refine ⟨hvalid', ?_, hextends.trans hextends'⟩
  rw [read_nil, nil_append] at hread
  rw [hread] at hread'
  exact hread'

/-- The handler stands for the calls: those before the first group are with the inner handler,
the others in the slice. -/
structure Stands {H : Type} (I : InnerHandler H) (m : Memory HandlerOp) (h : CtxHandler H)
    (calls : List Derivation) : Prop where
  valid : m.Valid h.ops
  scopes : I.scopes h.inner ++ (m.read h.ops).map HandlerOp.scope =
    I.scopes (calls.foldl I.derive I.fresh)
  topLevel : ∀ s ∈ I.scopes h.inner, ∃ attrs, s = .attrs attrs

namespace Stands
variable {H : Type} {I : InnerHandler H} {m m' : Memory HandlerOp} {h : CtxHandler H}
  {calls : List Derivation}

theorem start (I : InnerHandler H) (m : Memory HandlerOp) : Stands I m ⟨I.fresh, .nil⟩ [] where
  valid := valid_nil m
  scopes := by
    rw [read_nil]
    exact append_nil _
  topLevel := by
    rw [I.scopes_fresh]
    nofun

theorem mono (hs : Stands I m h calls) (hextends : m.Extends m.next m') : Stands I m' h calls where
  valid := hextends.valid hs.valid
  scopes := by
    rw [hextends.read hs.valid]
    exact hs.scopes
  topLevel := hs.topLevel

theorem addOp (hs : Stands I m h calls) (spare : Nat → List HandlerOp) {op : HandlerOp}
    {d : Derivation} (hd : ∀ h, I.scopes (I.derive h d) = I.scopes h ++ [op.scope]) :
    Stands I (CtxHandler.addOp spare m h.ops op).2
      ⟨h.inner, (CtxHandler.addOp spare m h.ops op).1⟩ (calls ++ [d]) := by
  obtain ⟨hvalid, hread, -⟩ := addOp_spec spare m h.ops op
  refine ⟨hvalid, ?_, hs.topLevel⟩
  rw [hread, map_append, ← append_assoc, hs.scopes, foldl_append, foldl_cons,
    foldl_nil, hd]
  rfl

theorem read_eq_nil (hs : Stands I m h calls) (hlen : h.ops.len = 0) : m.read h.ops = [] := by
  refine eq_nil_of_length_eq_zero ?_
  rw [length_read hs.valid, hlen]

theorem withAttrs (hs : Stands I m h calls) (spare : Nat → List HandlerOp) (attrs : List Attr) :
    Stands I (h.withAttrs I spare m attrs).2 (h.withAttrs I spare m attrs).1
        (calls ++ [.withAttrs attrs]) ∧
      m.Extends m.next (h.withAttrs I spare m attrs).2 := by
  unfold CtxHandler.withAttrs
  split_ifs with hlen
  · refine ⟨⟨valid_nil m, ?_, fun s hmem => ?_⟩, .refl _ m⟩
    · have hscopes := hs.scopes
      rw [hs.read_eq_nil hlen, map_nil, append_nil] at hscopes
      rw [read_nil, map_nil, append_nil, I.scopes_withAttrs, hscopes,
        foldl_append, foldl_cons, foldl_nil]
      exact (I.scopes_withAttrs _ attrs).symm
    · rw [I.scopes_withAttrs] at hmem
      obtain hmem | hmem := mem_append.mp hmem
      · exact hs.topLevel s hmem
      · exact ⟨attrs, mem_singleton.mp hmem⟩
  · exact ⟨hs.addOp spare fun h => I.scopes_withAttrs h attrs, (addOp_spec spare m h.ops _).2.2⟩

theorem withGroup (hs : Stands I m h calls) (spare : Nat → List HandlerOp) (name : String) :
    Stands I (h.withGroup spare m name).2 (h.withGroup spare m name).1
        (calls ++ [.withGroup name]) ∧
      m.Extends m.next (h.withGroup spare m name).2 := by
  unfold CtxHandler.withGroup
  split_ifs with hname
  · refine ⟨⟨hs.valid, ?_, hs.topLevel⟩, .refl _ m⟩
    rw [hs.scopes, foldl_append, foldl_cons, foldl_nil]
    exact ((I.scopes_withGroup _ name).trans (if_pos hname)).symm
  · refine ⟨hs.addOp spare fun h => ?_, (addOp_spec spare m h.ops _).2.2⟩
    unfold HandlerOp.scope
    rw [if_pos hname]
    exact (I.scopes_withGroup h name).trans (if_neg hname)

/-- The ids come after what is with the inner handler, and before the first group. -/
theorem handle (hs : Stands I m h calls) (ctx : LogContext) (record : List Attr) :
    ∃ front back, I.handle (calls.foldl I.derive I.fresh) record = front ++ back ∧
      h.handle I m ctx record = front ++ (ctx.ids ++ back) := by
  have hnone (h : ¬ 0 < ctx.ids.length) : ctx.ids = [] :=
    eq_nil_of_length_eq_zero (Nat.eq_zero_of_not_pos h)
  have hrecord : (if 0 < ctx.ids.length then record ++ ctx.ids else record) =
      record ++ ctx.ids := by
    split_ifs with hids
    · rfl
    · rw [hnone hids, append_nil]
  have hinner (scopes : List Scope) (record : List Attr) :
      render (I.scopes (if 0 < ctx.ids.length then I.withAttrs h.inner ctx.ids else h.inner) ++
        scopes) record =
      (I.scopes h.inner).flatMap Scope.own ++ (ctx.ids ++ render scopes record) := by
    split_ifs with hids
    · rw [I.scopes_withAttrs, append_assoc, render_append hs.topLevel]
      rfl
    · rw [hnone hids, render_append hs.topLevel]
      rfl
  rw [I.handle_eq, ← hs.scopes, render_append hs.topLevel]
  unfold CtxHandler.handle
  dsimp only
  by_cases hlen : h.ops.len = 0
  · refine ⟨(I.scopes h.inner).flatMap Scope.own ++ record, [], ?_, ?_⟩
    · rw [hs.read_eq_nil hlen, append_nil]
      rfl
    · rw [if_pos hlen, hrecord, I.handle_eq, ← append_nil (I.scopes h.inner), render_append hs.topLevel,
        append_nil, append_nil, append_assoc]
      rfl
  · refine ⟨_, _, rfl, ?_⟩
    rw [if_neg hlen, I.handle_eq, scopes_foldl_replay, hinner]

theorem derive (hs : Stands I m h calls) (spare : Nat → List HandlerOp) (d : Derivation) :
    Stands I (h.derive I spare m d).2 (h.derive I spare m d).1 (calls ++ [d]) ∧
      m.Extends m.next (h.derive I spare m d).2 := by
  cases d with
  | withAttrs attrs => exact hs.withAttrs spare attrs
  | withGroup name => exact hs.withGroup spare name

end Stands

namespace Loggers
variable {H : Type} {I : InnerHandler H} {spare : Nat → List HandlerOp} {l : Loggers H}

theorem stands_derive (hl : ∀ x ∈ l.handlers, Stands I l.memory x.1 x.2) (i : Nat)
    (d : Derivation) :
    ∀ x ∈ (l.derive I spare i d).handlers, Stands I (l.derive I spare i d).memory x.1 x.2 := by
  unfold derive
  split
  · exact hl
  · rename_i h calls hi
    have hs := hl _ (mem_of_getElem? hi)
    obtain ⟨hnew, hextends⟩ := hs.derive spare d
    intro x hx
    obtain hx | hx := mem_append.mp hx
    · exact (hl x hx).mono hextends
    · rw [mem_singleton.mp hx]
      exact hnew

theorem stands_run (hl : ∀ x ∈ l.handlers, Stands I l.memory x.1 x.2)
    (derivations : List (Nat × Derivation)) :
    ∀ x ∈ (l.run I spare derivations).handlers,
      Stands I (l.run I spare derivations).memory x.1 x.2 := by
  induction derivations generalizing l with
  | nil => exact hl
  | cons d ds ih => exact ih (stands_derive hl d.1 d.2)

end Loggers

/-- Whatever is derived from whatever, each handler gives for a record the tree that the inner
handler alone gives for the same calls, with the ids of the context at its top level. -/
theorem ctxHandler_renders {H : Type} (I : InnerHandler H) (spare : Nat → List HandlerOp)
    (memory : Memory HandlerOp) (derivations : List (Nat × Derivation)) :
    ∀ x ∈ ((Loggers.start I memory).run I spare derivations).handlers,
      ∀ (ctx : LogContext) (record : List Attr), ∃ front back,
        I.handle (x.2.foldl I.derive I.fresh) record = front ++ back ∧
        x.1.handle I ((Loggers.start I memory).run I spare derivations).memory ctx record =
          front ++ (ctx.ids ++ back) := by
  intro x hx ctx record
  have hstart : ∀ x ∈ (Loggers.start I memory).handlers,
      Stands I (Loggers.start I memory).memory x.1 x.2 := by
    intro x hx
    rw [mem_singleton.mp hx]
    exact Stands.start I memory
  exact (Loggers.stands_run hstart derivations x hx).handle ctx record

def plainHandler : InnerHandler (List Scope) where
  fresh := []
  withAttrs h attrs := h ++ [.attrs attrs]
  withGroup h name := if name = "" then h else h ++ [.group name]
  handle h record := render h record
  scopes h := h
  scopes_fresh := rfl
  scopes_withAttrs _ _ := rfl
  scopes_withGroup _ _ := rfl
  handle_eq _ _ := rfl

/-- Two handlers that are derived from the one with the group. -/
theorem ctxHandler_renders_siblings :
    ∃ l : Loggers (List Scope), ∃ x ∈ l.handlers,
      x.2 = [.withGroup "db", .withAttrs [.leaf "table" "tasks"]] ∧
      l.handlers.length = 4 ∧ ∃ front back,
        render [.group "db", .attrs [.leaf "table" "tasks"]] [.leaf "rows" "3"] = front ++ back ∧
        x.1.handle plainHandler l.memory ⟨some ("t", "s"), "r"⟩ [.leaf "rows" "3"] = front ++
          ([.leaf "trace_id" "t", .leaf "span_id" "s", .leaf "request_id" "r"] ++ back) :=
  ⟨(Loggers.start plainHandler ⟨fun _ => [], 0⟩).run plainHandler (fun _ => [])
      [(0, .withGroup "db"), (1, .withAttrs [.leaf "table" "tasks"]), (1, .withGroup "q")],
    _, mem_of_getElem? (i := 2) rfl, rfl, rfl,
    ctxHandler_renders plainHandler (fun _ => []) ⟨fun _ => [], 0⟩
      [(0, .withGroup "db"), (1, .withAttrs [.leaf "table" "tasks"]), (1, .withGroup "q")] _
      (mem_of_getElem? (i := 2) rfl) ⟨some ("t", "s"), "r"⟩ [.leaf "rows" "3"]⟩

end GolangBasics.Httpx
