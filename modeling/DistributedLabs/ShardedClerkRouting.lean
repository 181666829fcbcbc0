import DistributedLabs.ShardedClerk

/-!
# Clerks while controllers run one after another

A call sends requests only to groups that `Query` has named for its key, so its
requests are the `Put`s of clients that the invariant of migration speaks about.
Hence controllers that run one after another move the entries with their versions,
also under requests that are executed late.
-/

namespace DistributedLabs.ShardKv
open Kv RpcPrograms TransitionRuns

def Phase.group : Phase → Option Tgid
  | .calling gid _ | .waiting gid _ => some gid
  | .querying | .returned _ => none

/-- A call deals only with groups that `Query` has named for its key, and writes strings of a
kind. -/
structure PutCall.WellRouted (text : GoString → Prop) (w : World) (c : PutCall) : Prop where
  phase : ∀ gid ∈ c.phase.group, w.Routed (key2Shard c.args.key) gid
  requests : ∀ rpc ∈ c.requests, w.Routed (key2Shard c.args.key) rpc.gid
  strings : text c.args.key ∧ text c.args.value

namespace PutCall
variable {text : GoString → Prop} {w w' : World} {c c' : PutCall}

theorem wellRouted_start {args : PutArgs GoString GoString} (h : text args.key ∧ text args.value) :
    (start args).WellRouted text w := ⟨nofun, nofun, h⟩

theorem WellRouted.kept (h : c.WellRouted text w) (hk : RoutesKept w w') : c.WellRouted text w' :=
  ⟨fun gid hgid => hk _ gid (h.phase gid hgid), fun rpc hrpc => hk _ _ (h.requests rpc hrpc),
    h.strings⟩

theorem WellRouted.query (h : c.WellRouted text w) (hs : c.query w = some c') : c'.WellRouted text w := by
  obtain ⟨-, l, cfg, hlatest, hconfig, rfl⟩ := query_eq_some hs
  refine ⟨?_, h.requests, h.strings⟩
  rintro gid ⟨⟩
  exact ⟨l, hlatest, l, List.self_mem_range_succ, cfg, hconfig, rfl⟩

theorem WellRouted.send (h : c.WellRouted text w) (hs : c.send = some c') : c'.WellRouted text w := by
  obtain ⟨gid, isResend, hphase, rfl⟩ := send_eq_some hs
  have hgid : w.Routed (key2Shard c.args.key) gid := h.phase gid (by rw [hphase]; rfl)
  refine ⟨?_, fun rpc hrpc => ?_, h.strings⟩
  · rintro gid ⟨⟩
    exact hgid
  · rcases List.mem_append.mp hrpc with hrpc | hrpc
    · exact h.requests rpc hrpc
    · rw [List.mem_singleton.mp hrpc]
      exact hgid

theorem WellRouted.retry (h : c.WellRouted text w) (hs : c.retry = some c') : c'.WellRouted text w := by
  obtain ⟨gid, isResend, hphase, rfl⟩ := retry_eq_some hs
  refine ⟨?_, h.requests, h.strings⟩
  rintro gid ⟨⟩
  exact h.phase gid (by rw [hphase]; rfl)

theorem WellRouted.receive {i : ℕ} (h : c.WellRouted text w) (hs : c.receive i = some c') :
    c'.WellRouted text w := by
  obtain ⟨-, isResend, err, -, -, rfl⟩ := receive_eq_some hs
  refine ⟨fun gid hgid => ?_, h.requests, h.strings⟩
  change gid ∈ (settle isResend err).group at hgid
  unfold settle at hgid
  split_ifs at hgid <;> cases hgid

theorem WellRouted.lose {i : ℕ} (h : c.WellRouted text w) (hs : c.lose i = some c') :
    c'.WellRouted text w := by
  obtain ⟨-, rfl⟩ := lose_eq_some hs
  exact ⟨h.phase, fun rpc hrpc => h.requests rpc (List.mem_of_mem_eraseIdx hrpc), h.strings⟩

theorem WellRouted.act {a : ClerkAction} (h : c.WellRouted text w) (hs : c.act w a = some c') :
    c'.WellRouted text w := by
  cases a with
  | query => exact h.query hs
  | send => exact h.send hs
  | retry => exact h.retry hs
  | receive i => exact h.receive hs
  | lose i => exact h.lose hs

end PutCall

section Orderly
variable {B : Type} {json : Json B} {text : GoString → Prop}

/-- The controllers run one after another, and clients write strings of a kind. -/
def OneAtATime (text : GoString → Prop) (d : Deployment B) : Event → Prop
  | .controllers a => Sequential text d.sys a
  | .invoke _ args => text args.key ∧ text args.value
  | _ => True

structure Orderly (json : Json B) (text : GoString → Prop) (d : Deployment B) : Prop where
  inOrder : InOrder json text d.sys
  routed : ∀ k c, d.calls k = some c → c.WellRouted text d.sys.world

theorem Orderly.setCall {d : Deployment B} (h : Orderly json text d) {k : ℕ} {c : PutCall}
    (hc : c.WellRouted text d.sys.world) : Orderly json text (d.setCall k c) :=
  ⟨h.inOrder, forall_calls_setCall h.routed hc⟩

theorem Orderly.step (hrt : json.RoundTrips text) {d d' : Deployment B} {e : Event}
    (h : Orderly json text d) (hg : OneAtATime text d e) (hs : d.step json e = some d') :
    Orderly json text d' := by
  cases e with
  | controllers a =>
    obtain ⟨-, sys, hsys, rfl⟩ := Deployment.step_controllers hs
    obtain ⟨hinOrder, hroutes⟩ := h.inOrder.step hrt hg hsys
    exact ⟨hinOrder, fun k c hc => (h.routed k c hc).kept hroutes⟩
  | invoke k args =>
    rw [Deployment.step_invoke hs]
    exact h.setCall (PutCall.wellRouted_start hg)
  | clerk k a =>
    obtain ⟨c, c', hc, hc', rfl⟩ := Deployment.step_clerk hs
    exact h.setCall ((h.routed k c hc).act hc')
  | serve k i =>
    obtain ⟨c, c', w', hc, hr, rfl⟩ := Deployment.step_serve hs
    obtain ⟨rpc, hrpc, hserved⟩ := Option.map_eq_some_iff.mp hr
    cases hserved
    have hcall := h.routed k c hc
    have hrouted := hcall.requests rpc (List.mem_of_getElem? hrpc)
    have hstep : d.sys.step json (.clientPut rpc.gid c.args) =
        some { d.sys with world := d.sys.world.clientPut rpc.gid c.args } := if_pos hrouted
    have hclient : Sequential text d.sys (.clientPut rpc.gid c.args) := hcall.strings
    obtain ⟨hinOrder, hroutes⟩ := h.inOrder.step hrt hclient hstep
    have hothers : Orderly json text (d.setWorld (d.sys.world.clientPut rpc.gid c.args)) :=
      ⟨hinOrder, fun k c hc => (h.routed k c hc).kept hroutes⟩
    have hkept := hcall.kept hroutes
    exact hothers.setCall
      ⟨hkept.phase, fun rpc hrpc => hkept.requests rpc (List.mem_of_mem_eraseIdx hrpc), hkept.strings⟩

/-- Controllers that run one after another move the entries with their versions. -/
theorem entriesMoved_of_oneAtATime (hrt : json.RoundTrips text) {first : ShardConfig}
    (hfirst : WellFormed first) {d : Deployment B}
    (h : Reaches (Deployment.step json) (OneAtATime text) (Deployment.init json first) d) (e : Event) :
    EntriesMoved d e := by
  have hinit : Orderly json text (Deployment.init json first) := ⟨inOrder_init hfirst, nofun⟩
  have hkept : ∀ d e d', Orderly json text d → OneAtATime text d e → Deployment.step json d e = some d' →
      Orderly json text d' := fun d e d' ho hg hstep => ho.step hrt hg hstep
  have horderly := h.invariant hinit hkept
  cases e with
  | serve k i =>
    intro c hc rpc hrpc haccepts
    obtain ⟨l, v, old, hsound⟩ := horderly.inOrder.intact
    have hrouted := (horderly.routed k c hc).requests rpc (List.mem_of_getElem? hrpc)
    exact ((hsound.stage _).serves hrouted haccepts).holds c.args.key rfl
  | controllers a => trivial
  | invoke k args => trivial
  | clerk k a => trivial

end Orderly

end DistributedLabs.ShardKv
