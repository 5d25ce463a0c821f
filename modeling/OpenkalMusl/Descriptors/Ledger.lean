import OpenkalMusl.Descriptors.Calls
import OpenkalMusl.Transition.Ownership

/-!
# What calls obtain and give back

What a description owns is given back when its last descriptor goes: a socket's handles under the
lock, anything else as the lock is released. `close` and `dup2` let descriptors go with nothing else
waiting to be closed, so each gives back what one description owned, or nothing. The ledger of a
run is the list of the handles it obtained and gave back, in order.

## Main definitions

* `PortState.gives`: what closing a description gives back
* `Emptied`: the table after a description's last descriptor went
* `Ledger`: the table with the handles obtained and given back

## Main results

* `emptied_descRelease`: the last release of a description, up to the release of the lock
* `doClose_cases`, `doDup_cases`: what `close` and `dup2` can do
-/

namespace OpenkalMusl

open Transition

/-- The handles a socket's slot holds. -/
def Sock.holds (s : Sock) : List Resource :=
  (match s.state with
    | .conn => [.conn s.conn]
    | .listen => [.listener s.lis]
    | .dgram => [.datagram s.dg]
    | _ => []) ++ if s.pendConn then [.conn s.pend] else []

/-- A socket's slot after its socket went. -/
def Sock.vacated (s : Sock) : Sock := { s with state := .free, pendConn := false, pendMsg := false }

namespace PortState

/-- What closing a description gives back. -/
def gives (w : PortState) (p : Desc) : List Resource :=
  match p.kind with
  | .file => [.file p.file]
  | .dir => [.dir p.dir]
  | .channel => [.channel p.stream]
  | .socket => p.sock.elim [] fun slot => (w.sock slot).holds
  | _ => []

/-- The socket table after a description was closed. -/
def sockAfter (w : PortState) (p : Desc) : Fin okmMaxSock → Sock :=
  if p.kind = .socket then
    p.sock.elim w.sock fun slot => Function.update w.sock slot (w.sock slot).vacated
  else w.sock

/-- **Closing a description** gives back what it owns, and frees its socket's slot. -/
theorem closeOwned_eq (w : PortState) (me : Context) (p : Desc) :
    w.closeOwned me p =
      { w with sock := w.sockAfter p, log := w.log ++ (w.gives p).map (.closed me) } := by
  unfold closeOwned gives sockAfter
  cases p.kind with
  | free => simp
  | stream => simp
  | null => simp
  | file => rfl
  | dir => rfl
  | channel => rfl
  | socket =>
    cases p.sock with
    | none => simp [okmSockRelease]
    | some slot =>
      -- the object its state says, and then a connection that was not taken
      simp only [okmSockRelease, Sock.holds, Sock.vacated, Option.elim, if_true]
      cases (w.sock slot).state <;> cases (w.sock slot).pendConn <;> simp [record]

theorem released_map_closed (me : Context) (rs : List Resource) :
    (rs.map (Event.closed me)).filterMap Event.released = rs := by
  simp [List.filterMap_map, Function.comp_def, Event.released]

/-! ## The release of the lock -/

/-- A write of a descriptor or a description may be made before the lock's release or after it. -/
theorem leave_comm {g : PortState → PortState} (hset : ∀ w, (g w).settling = w.settling)
    (hg : ∀ w l, g { w with settling := l } = { g w with settling := l })
    (hclose : ∀ w me p, (g w).closeOwned me p = g (w.closeOwned me p)) (w : PortState)
    (me : Context) : (g w).leave me = g (w.leave me) := by
  have hfold : ∀ (ps : List Desc) (v : PortState),
      ps.foldl (fun w p => w.closeOwned me p) (g v) =
        g (ps.foldl (fun w p => w.closeOwned me p) v) := by
    intro ps
    induction ps with
    | nil => exact fun _ => rfl
    | cons p ps ih =>
      intro v
      rw [List.foldl_cons, hclose, ih, List.foldl_cons]
  unfold leave takeSettling
  rw [hset]
  split_ifs
  · rfl
  · simp only
    rw [← hg]
    exact hfold _ _

theorem leave_setFd (w : PortState) (me : Context) (f : Fin okmMaxFd) (s : FdSlot) :
    (w.setFd f s).leave me = (w.leave me).setFd f s :=
  leave_comm (g := fun w => w.setFd f s) (fun _ => rfl) (fun _ _ => rfl)
    (fun w me p => by rw [closeOwned_eq, closeOwned_eq]; rfl) w me

theorem leave_setDesc (w : PortState) (me : Context) (d : Fin okmMaxDesc) (p : Desc) :
    (w.setDesc d p).leave me = (w.leave me).setDesc d p :=
  leave_comm (g := fun w => w.setDesc d p) (fun _ => rfl) (fun _ _ => rfl)
    (fun w me q => by rw [closeOwned_eq, closeOwned_eq]; rfl) w me

/-- One description that was let go is closed as the lock is released. -/
theorem leave_single {w : PortState} {me : Context} {p : Desc} (h : w.settling = [⟨me, p⟩]) :
    w.leave me = ({ w with settling := [] }).closeOwned me p := by
  unfold leave takeSettling
  rw [if_neg (by rw [h]; nofun), h]
  simp [takeSettlingLoop]

theorem dropName_frame (w : PortState) (p : Desc) :
    (w.dropName p).sock = w.sock ∧ (w.dropName p).pre = w.pre ∧
      (w.dropName p).cwdDir = w.cwdDir := by
  unfold dropName pathSlotClear okmKalFree
  cases p.pathSlot with
  | none => exact ⟨rfl, rfl, rfl⟩
  | some slot =>
    simp only
    cases w.dirlong slot with
    | none => exact ⟨rfl, rfl, rfl⟩
    | some l =>
      simp only
      split_ifs <;> exact ⟨rfl, rfl, rfl⟩

theorem leave_desc (w : PortState) (me : Context) : (w.leave me).desc = w.desc := by
  have hfold : ∀ (ps : List Desc) (v : PortState),
      (ps.foldl (fun w p => w.closeOwned me p) v).desc = v.desc := by
    intro ps
    induction ps with
    | nil => exact fun _ => rfl
    | cons p ps ih =>
      intro v
      rw [List.foldl_cons, ih, closeOwned_desc]
  unfold leave takeSettling
  split_ifs
  · rfl
  · exact hfold _ _

theorem leave_fd (w : PortState) (me : Context) : (w.leave me).fd = w.fd := by
  have hfold : ∀ (ps : List Desc) (v : PortState),
      (ps.foldl (fun w p => w.closeOwned me p) v).fd = v.fd := by
    intro ps
    induction ps with
    | nil => exact fun _ => rfl
    | cons p ps ih =>
      intro v
      rw [List.foldl_cons, ih, closeOwned_fd]
  unfold leave takeSettling
  split_ifs
  · rfl
  · exact hfold _ _

theorem exact_leave {w : PortState} (h : w.Exact) (me : Context) : (w.leave me).Exact :=
  h.congr (named_congr (leave_fd w me)) (by simp [leave_desc]) (by simp [leave_desc])

/-! ## The last descriptor of a description -/

/-- One descriptor less names a description. -/
def oneLess (w : PortState) (d : Fin okmMaxDesc) : Desc :=
  { w.desc d with refs := (w.desc d).refs - 1 }

/-- The table after a description's last descriptor went and the lock was released. -/
structure Emptied (w v : PortState) (d : Fin okmMaxDesc) : Prop where
  fd : v.fd = w.fd
  desc : v.desc = Function.update w.desc d (w.oneLess d).released
  sock : v.sock = w.sockAfter (w.desc d)
  settling : v.settling = []
  pre : v.pre = w.pre
  cwdDir : v.cwdDir = w.cwdDir
  log : ∃ es, v.log = w.log ++ es ∧ es.filterMap Event.released = w.gives (w.desc d)

theorem filterMap_released_naming {es : List Event} (h : ∀ e ∈ es, e.naming = true) :
    es.filterMap Event.released = [] := by
  rw [List.filterMap_eq_nil_iff]
  intro e he
  have hn := h e he
  cases e with
  | named d n => rfl
  | allocated a n => rfl
  | freed a n => rfl
  | bound d r => cases hn
  | letGo c r => cases hn
  | closed c r => cases hn
  | returned c r => cases hn

/-- The part of a release before the lock's: either the description waits to be closed, or it has
been closed. -/
theorem letGo_of_settled {w : PortState} (hs : w.settling = []) (me : Context) (p : Desc) :
    (w.letGo me p = { w with
        settling := [⟨me, p⟩], log := w.log ++ p.owned.toList.map (.letGo me) }) ∨
      w.letGo me p = w.closeOwned me p := by
  unfold letGo noteLetGo settle Desc.owned
  cases hk : p.kind with
  | free => exact Or.inr (by simp [closeOwned, hk])
  | stream => exact Or.inr (by simp [closeOwned, hk])
  | null => exact Or.inr (by simp [closeOwned, hk])
  | socket => exact Or.inr (by simp)
  | file => exact Or.inl (by simp [record, hs, okmSettlingMax])
  | dir => exact Or.inl (by simp [record, hs, okmSettlingMax])
  | channel => exact Or.inl (by simp [record, hs, okmSettlingMax])

theorem gives_congr {w v : PortState} (h : v.sock = w.sock) (p : Desc) : v.gives p = w.gives p := by
  unfold gives
  rw [h]

theorem sockAfter_congr {w v : PortState} (h : v.sock = w.sock) (p : Desc) :
    v.sockAfter p = w.sockAfter p := by
  unfold sockAfter
  rw [h]

/-- A file, a directory or a channel's end waits, and is closed as the lock is released. -/
theorem emptied_of_waiting {w : PortState} {d : Fin okmMaxDesc} {me : Context}
    (hlet : w.letGo me (w.oneLess d) = { w with
      settling := [⟨me, w.oneLess d⟩],
      log := w.log ++ (w.oneLess d).owned.toList.map (.letGo me) }) :
    w.Emptied ((((w.letGo me (w.oneLess d)).dropName (w.oneLess d)).leave me).setDesc d
      (w.oneLess d).released) d := by
  obtain ⟨es, hes, hnaming⟩ := dropName_naming (w.letGo me (w.oneLess d)) (w.oneLess d)
  obtain ⟨hsock, hpre, hcwd⟩ := dropName_frame (w.letGo me (w.oneLess d)) (w.oneLess d)
  have hwait : ((w.letGo me (w.oneLess d)).dropName (w.oneLess d)).settling =
      [⟨me, w.oneLess d⟩] := by
    rw [dropName_settling, hlet]
  have hfd : ((w.letGo me (w.oneLess d)).dropName (w.oneLess d)).fd = w.fd := by simp
  have hdesc : ((w.letGo me (w.oneLess d)).dropName (w.oneLess d)).desc = w.desc := by simp
  rw [leave_single hwait, closeOwned_eq]
  generalize (w.letGo me (w.oneLess d)).dropName (w.oneLess d) = v at hes hsock hpre hcwd hfd hdesc
  rw [hlet] at hes hsock hpre hcwd
  have hgives := gives_congr (v := { v with settling := [] }) hsock (w.oneLess d)
  refine ⟨hfd, ?_, sockAfter_congr hsock _, rfl, hpre, hcwd, ?_⟩
  · rw [setDesc_desc]
    exact congrArg (fun t => Function.update t d _) hdesc
  · refine ⟨(w.oneLess d).owned.toList.map (.letGo me) ++
      (es ++ (w.gives (w.desc d)).map (.closed me)), ?_, ?_⟩
    · rw [setDesc_log]
      show v.log ++ _ = _
      rw [hgives, hes, List.append_assoc, List.append_assoc]
      rfl
    · have hletGo : ((w.oneLess d).owned.toList.map (Event.letGo me)).filterMap
          Event.released = [] := by
        simp [List.filterMap_map, Function.comp_def, Event.released]
      rw [List.filterMap_append, List.filterMap_append, hletGo,
        filterMap_released_naming hnaming, released_map_closed]
      rfl

/-- A socket is closed under the lock; a borrowed stream and the null device are not closed. -/
theorem emptied_of_closed {w : PortState} (hs : w.settling = []) {d : Fin okmMaxDesc} {me : Context}
    (hlet : w.letGo me (w.oneLess d) = w.closeOwned me (w.oneLess d)) :
    w.Emptied ((((w.letGo me (w.oneLess d)).dropName (w.oneLess d)).leave me).setDesc d
      (w.oneLess d).released) d := by
  obtain ⟨es, hes, hnaming⟩ := dropName_naming (w.letGo me (w.oneLess d)) (w.oneLess d)
  obtain ⟨hsock, hpre, hcwd⟩ := dropName_frame (w.letGo me (w.oneLess d)) (w.oneLess d)
  have hnone : ((w.letGo me (w.oneLess d)).dropName (w.oneLess d)).settling = [] := by
    rw [dropName_settling, hlet, closeOwned_settling, hs]
  have hfd : ((w.letGo me (w.oneLess d)).dropName (w.oneLess d)).fd = w.fd := by simp
  have hdesc : ((w.letGo me (w.oneLess d)).dropName (w.oneLess d)).desc = w.desc := by simp
  rw [leave_of_settled hnone]
  generalize (w.letGo me (w.oneLess d)).dropName (w.oneLess d) = v
    at hes hsock hpre hcwd hfd hdesc hnone
  rw [hlet, closeOwned_eq] at hes hsock hpre hcwd
  refine ⟨hfd, ?_, hsock, hnone, hpre, hcwd, ?_⟩
  · rw [setDesc_desc, hdesc]
  · refine ⟨(w.gives (w.desc d)).map (.closed me) ++ es, ?_, ?_⟩
    · rw [setDesc_log, hes, List.append_assoc]
      rfl
    · rw [List.filterMap_append, released_map_closed, filterMap_released_naming hnaming,
        List.append_nil]

/-- **The last release of a description**, up to the release of the lock. -/
theorem emptied_descRelease {w : PortState} (hs : w.settling = []) {d : Fin okmMaxDesc}
    (hlast : (w.desc d).refs ≤ 1) (me : Context) :
    w.Emptied ((w.descRelease me d).leave me) d := by
  have hrel : w.descRelease me d =
      ((w.letGo me (w.oneLess d)).dropName (w.oneLess d)).setDesc d (w.oneLess d).released := by
    unfold descRelease
    simp only
    rw [if_neg (by omega)]
    rfl
  rw [hrel, leave_setDesc]
  rcases letGo_of_settled hs me (w.oneLess d) with hlet | hlet
  · exact emptied_of_waiting hlet
  · exact emptied_of_closed hs hlet

/-- What a release can do, up to the release of the lock: count one descriptor less, or empty the
description. -/
theorem leave_descRelease_cases {w : PortState} (hs : w.settling = []) (me : Context)
    (d : Fin okmMaxDesc) :
    (1 < (w.desc d).refs ∧ (w.descRelease me d).leave me = w.setDesc d (w.oneLess d)) ∨
      (w.desc d).refs ≤ 1 ∧ w.Emptied ((w.descRelease me d).leave me) d := by
  by_cases hlast : (w.desc d).refs ≤ 1
  · exact Or.inr ⟨hlast, emptied_descRelease hs hlast me⟩
  · left
    have hrel : w.descRelease me d = w.setDesc d (w.oneLess d) := by
      unfold descRelease
      simp only
      rw [if_pos (by omega)]
      rfl
    have hset : (w.setDesc d (w.oneLess d)).settling = [] := hs
    refine ⟨by omega, ?_⟩
    rw [hrel, leave_of_settled hset]

/-! ## A new descriptor -/

/-- **What taking a new descriptor can do**: nothing, or bind a description that none names. -/
theorem bindNew_cases {w : PortState} (h : w.Exact) (me : Context) (kind : Kind)
    (stream file dir : Handle) (flags : ℕ) :
    (∃ e, w.bindNew me kind stream file dir flags = (w, .error e)) ∨
      ∃ f d, w.descAlloc = some d ∧ (w.fd f).desc = none ∧
        w.bindNew me kind stream file dir flags =
          ((w.bindDesc d ((w.desc d).bind kind stream file dir flags)).setFd f
            ⟨some d, hasFlag flags oCloexec⟩, .ok f) := by
  unfold bindNew
  cases hf : w.okmFdAlloc 0 with
  | error e => exact Or.inl ⟨e, rfl⟩
  | ok f =>
    have hfree := okmFdAlloc_eq_ok hf
    obtain ⟨d, hbind, hd⟩ := h.okmFdBind_ok hfree me kind stream file dir flags
    exact Or.inr ⟨f, d, hd, hfree, hbind⟩

/-- A description that is allocated was free. -/
theorem Exact.kind_descAlloc {w : PortState} (h : w.Exact) {d : Fin okmMaxDesc}
    (hd : w.descAlloc = some d) : (w.desc d).kind = .free :=
  (h d).2.mpr (h.occ_descAlloc hd)

/-! ## The table a program starts with -/

/-- What a bind upon a free descriptor can do. -/
theorem okmFdBind_free_cases {w : PortState} {fd : Int} {f : Fin okmMaxFd}
    (hf : fdIndex fd = some f) (hfree : (w.fd f).desc = none) (me : Context) (kind : Kind)
    (stream file dir : Handle) (flags : ℕ) :
    (w.okmFdBind me fd kind stream file dir flags).1 = w ∨
      ∃ d, (w.okmFdBind me fd kind stream file dir flags).1 =
        (w.bindDesc d ((w.desc d).bind kind stream file dir flags)).setFd f
          ⟨some d, hasFlag flags oCloexec⟩ := by
  rcases w.okmFdBind_cases me fd kind stream file dir flags with heq | ⟨g, d, hg, -, heq⟩
  · exact Or.inl heq
  · obtain rfl : f = g := Option.some.inj (hf.symm.trans hg)
    refine Or.inr ⟨d, ?_⟩
    have hvac : (w.bindDesc d ((w.desc d).bind kind stream file dir flags)).vacate me f =
        w.bindDesc d ((w.desc d).bind kind stream file dir flags) := by
      unfold PortState.vacate
      simp [PortState.bindDesc, hfree]
    rw [heq, hvac]

/-- What the binding of a stream keeps, the binding of the three keeps. -/
theorem bindStreams_keeps {I : PortState → Prop}
    (h : ∀ w d f t stream flags, I w →
      I ((w.bindDesc d ((w.desc d).bind .stream stream 0 0 flags)).setFd f t))
    (me : Context) (init : Start)
    (h₀ : I { okmTableInitMemory init with stdStream := init.streams }) :
    I ((okmTableInitMemory init).bindStreams me init.streams) := by
  have hbind : ∀ {w : PortState} {fd : Int} {f : Fin okmMaxFd}, fdIndex fd = some f →
      (w.fd f).desc = none → ∀ stream flags, I w →
        I (w.okmFdBind me fd .stream stream 0 0 flags).1 := by
    intro w fd f hf hfree stream flags hw
    rcases okmFdBind_free_cases hf hfree me .stream stream 0 0 flags with he | ⟨d, he⟩
    · rwa [he]
    · rw [he]
      exact h w d f _ stream flags hw
  have f₀ : fdIndex 0 = some ⟨0, by decide⟩ := by decide
  have f₁ : fdIndex 1 = some ⟨1, by decide⟩ := by decide
  have f₂ : fdIndex 2 = some ⟨2, by decide⟩ := by decide
  -- each of the three descriptors is free as it is bound
  have g₀ := okmFdBind_of_free (w := { okmTableInitMemory init with stdStream := init.streams })
    f₀ rfl me .stream (init.streams 0) 0 0 oRdonly
  have e₁ := congrArg FdSlot.desc (g₀.2 ⟨1, by decide⟩ (by decide))
  have g₁ := okmFdBind_of_free f₁ (e₁.trans rfl) me .stream (init.streams 1) 0 0 oWronly
  have e₂ := congrArg FdSlot.desc ((g₁.2 ⟨2, by decide⟩ (by decide)).trans
    (g₀.2 ⟨2, by decide⟩ (by decide)))
  unfold bindStreams
  exact hbind f₂ (e₂.trans rfl) _ _ (hbind f₁ (e₁.trans rfl) _ _ (hbind f₀ rfl _ _ h₀))

/-- What the binding of a stream keeps holds of the table a program starts with. -/
theorem okmTableInit_keeps {I : PortState → Prop}
    (h : ∀ w d f t stream flags, I w →
      I ((w.bindDesc d ((w.desc d).bind .stream stream 0 0 flags)).setFd f t))
    (hnames : ∀ w pre cwd cwdDir, I w → I { w with pre := pre, cwd := cwd, cwdDir := cwdDir })
    (me : Context) (init : Start)
    (h₀ : I { okmTableInitMemory init with stdStream := init.streams }) :
    I (okmTableInit me init) := by
  have hstreams := bindStreams_keeps h me init h₀
  unfold okmTableInit okmTableInitStreams
  generalize (okmTableInitMemory init).bindStreams me init.streams = v at hstreams ⊢
  cases takePreopens init.preopens with
  | nil => exact hnames v _ v.cwd v.cwdDir hstreams
  | cons p rest => exact hnames v _ _ _ hstreams

/-! ## The calls -/

/-- `close`. -/
def doClose (w : PortState) (me : Context) (fd : Int) : Outcome :=
  match w.okmDescOf fd with
  | none => w.fail .ebadf
  | some _ => ⟨(w.okmFdRelease me fd).leave me, .ok 0, []⟩

/-- `dup`, `dup2` and `dup3`. -/
def doDup (w : PortState) (me : Context) (fd newfd : Int) (cloexec : Bool) : Outcome :=
  finishPlain (w.okmFdDup me fd newfd cloexec) me []

/-- **What `close` can do**: nothing, or free the descriptor and release what it named. -/
theorem doClose_cases (w : PortState) (me : Context) (fd : Int) :
    (w.doClose me fd).port = w ∨
      ∃ f d, (w.fd f).desc = some d ∧
        (w.doClose me fd).port = ((w.setFd f {}).descRelease me d).leave me := by
  unfold doClose okmDescOf okmFdRelease
  cases fdIndex fd with
  | none => exact Or.inl rfl
  | some f =>
    simp only [Option.bind_some]
    cases hd : (w.fd f).desc with
    | none => exact Or.inl rfl
    | some d => exact Or.inr ⟨f, d, hd, rfl⟩

/-- **What a duplication can do**: nothing, or release what the new descriptor named, and count it
for the description it names. -/
theorem doDup_cases {w : PortState} (hs : w.settling = []) (me : Context) (fd newfd : Int)
    (cloexec : Bool) :
    (w.doDup me fd newfd cloexec).port = w ∨
      ∃ f n d, (w.fd f).desc = some d ∧ n ≠ f ∧
        (w.doDup me fd newfd cloexec).port =
          (((w.vacate me n).leave me).addRef d).setFd n ⟨some d, cloexec⟩ := by
  have hport : (w.doDup me fd newfd cloexec).port =
      (w.okmFdDup me fd newfd cloexec).1.leave me := rfl
  rw [hport]
  rcases w.okmFdDup_cases me fd newfd cloexec with he | ⟨f, n, d, hf, hn, he⟩
  · exact Or.inl (by rw [he, leave_of_settled hs])
  · refine Or.inr ⟨f, n, d, hf, hn, ?_⟩
    rw [he, leave_setFd]
    unfold addRef
    rw [leave_setDesc, leave_desc]

end PortState

/-! ## The handles of a run of calls -/

/-- The table, with the history of the handles of one kind. -/
structure Ledger (α : Type*) where
  port : PortState
  hist : List (Traffic α)

namespace Ledger

variable {α : Type*}

/-- The state a call leaves: what it obtained of the kind `of_`, and then what it gave back. -/
def after (of_ : Resource → Option α) (s : Ledger α) (w : PortState) (obtained : List Resource) :
    Ledger α where
  port := w
  hist := s.hist ++ (obtained.filterMap of_).map .got ++
    (((w.log.drop s.port.log.length).filterMap Event.released).filterMap of_).map .gave

theorem after_of_log {of_ : Resource → Option α} {s : Ledger α} {w : PortState} {es : List Event}
    (h : w.log = s.port.log ++ es) (obtained : List Resource) :
    (s.after of_ w obtained).hist = s.hist ++ (obtained.filterMap of_).map .got ++
      ((es.filterMap Event.released).filterMap of_).map .gave := by
  rw [after, h, List.drop_left]

variable [DecidableEq α]

/-- The handles obtained and not given back. -/
def held (s : Ledger α) : Finset α := Traffic.holding s.hist

end Ledger

end OpenkalMusl
