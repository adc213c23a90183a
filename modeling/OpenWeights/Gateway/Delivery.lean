import OpenWeights.Gateway.Drafts

/-!
# Delivery — what a client of the gateway gets

A request that is served ends with one status line, and a `200` comes with the whole object.  The
one exception: the coalescer hands the error of a download to every request that waited for it, and
a request that is handed a cancellation takes its own client for gone and writes nothing.

`delivers_iff` says so for every run of the gateway, whatever disk it starts on.
-/

namespace OpenWeights
namespace Gateway

open Lib Db OpenWeights.Core

/-! ## Responses -/

/-- The object of a hash: all its bytes, under its digest. -/
structure Handlers.Complete (h : Handlers) (hash bytes : Bytes) : Prop where
  length_eq : (bytes.length : Int) = (h.sizes hash).toInt
  digest_eq : merkleHashHex h.blake3 bytes = hash

@[simp] theorem statusLines_respondError (w : ResponseWriter) (status : Nat) (msg : Bytes) :
    (respondError w status msg).statusLines = w.statusLines ++ [status] := rfl

theorem VerifyErr.status_ne (e : VerifyErr) : e.status ≠ 200 := by
  unfold VerifyErr.status
  split
  · decide
  · split
    · decide
    · split <;> decide

theorem readRanges_refused {range : Bytes} {size : Int64} {w : ResponseWriter}
    (h : readRanges .new range size = .error w) : ∃ status, w.statusLines = [status] ∧ status ≠ 200 := by
  unfold readRanges at h
  split at h
  · cases h
  · split at h
    · cases h
    · cases h
      exact ⟨416, rfl, by decide⟩
    · cases h
      exact ⟨400, rfl, by decide⟩

theorem boundRanges_refused {granted : List Segment} {ranges : List Range} {w : ResponseWriter}
    (h : boundRanges .new granted ranges = .error w) :
    ∃ status, w.statusLines = [status] ∧ status ≠ 200 := by
  unfold boundRanges at h
  split at h
  · cases h
  · simp only at h
    split at h
    · cases h
    · split at h
      · cases h
      · cases h
        exact ⟨403, rfl, by decide⟩

/-- A refusal is one status line, and not a `200`. -/
theorem admission_refused {uuid : UuidParser} {hmac : Hmac} {verifier : UrlVerifier}
    {lookup : XorbLookup} {r : XorbRequest} {now : UInt64} {w : ResponseWriter}
    (h : admission uuid hmac verifier lookup .new r now = .error w) :
    ∃ status, w.statusLines = [status] ∧ status ≠ 200 := by
  unfold admission at h
  split at h
  · rename_i verr _
    cases h
    exact ⟨verr.status, rfl, verr.status_ne⟩
  · split at h
    · cases h
      exact ⟨404, rfl, by decide⟩
    · cases h
      exact ⟨500, rfl, by decide⟩
    · split at h
      · rename_i hread
        cases h
        exact readRanges_refused hread
      · split at h
        · rename_i hbound
          cases h
          exact boundRanges_refused hbound
        · cases h

theorem admission_row {uuid : UuidParser} {hmac : Hmac} {verifier : UrlVerifier}
    {lookup : XorbLookup} {r : XorbRequest} {now : UInt64} {w : ResponseWriter} {a : Admitted}
    (h : admission uuid hmac verifier lookup w r now = .ok a) :
    lookup r.hash = .ok (a.siaId, a.size) := by
  unfold admission at h
  split at h
  · cases h
  · split at h
    · cases h
    · cases h
    · rename_i siaId size hlookup
      split at h
      · cases h
      · split at h
        · cases h
        · cases h
          exact hlookup

theorem statusLines_writeFull (w : ResponseWriter) (size : Int64) (src : Bytes) :
    (writeFull w size src).statusLines = w.statusLines ++ [200] := rfl

theorem body_writeFull (w : ResponseWriter) (size : Int64) (src : Bytes) :
    (writeFull w size src).body = w.body ++ sectionReader src 0 size := rfl

theorem statusLines_writeSingleRange (w : ResponseWriter) (r : Range) (size : Int64)
    (src : Bytes) : (writeSingleRange w r size src).statusLines = w.statusLines ++ [206] := rfl

theorem statusLines_writeMultipartRanges (w : ResponseWriter) (ranges : List Range) (size : Int64)
    (src : Bytes) :
    (writeMultipartRanges w ranges size src).statusLines = w.statusLines ++ [206] := rfl

/-- A response is one status line; a `200` carries what the source has up to the size. -/
theorem respond_statusLines (src : XorbSource) (size : Int64) (ranges : List Range) :
    (respond .new src size ranges).statusLines = [206] ∨
      (respond .new src size ranges).statusLines = [200] ∧
        (respond .new src size ranges).body = sectionReader src.bytes 0 size := by
  unfold respond
  simp only
  split
  · exact .inr ⟨statusLines_writeFull _ _ _, (body_writeFull _ _ _).trans (List.nil_append _)⟩
  · exact .inl (statusLines_writeSingleRange _ _ _ _)
  · exact .inl (statusLines_writeMultipartRanges _ _ _ _)

theorem sectionReader_whole {src : Bytes} {size : Int64}
    (hlength : (src.length : Int) = size.toInt) : sectionReader src 0 size = src := by
  by_cases hempty : src = []
  · subst hempty
    unfold sectionReader
    extract_lets limit
    clear_value limit
    split
    · rfl
    · rw [List.drop_nil, List.take_nil]
  · have hpos : 0 < src.length := List.length_pos_iff.2 hempty
    have hbound := size.toInt_lt
    have hzero : (0 : Int64).toInt = 0 := Int64.toInt_zero
    rw [sectionReader_eq (by omega) (by omega) (by omega), hzero, Int.toNat_zero, List.drop_zero]
    exact List.take_of_length_le (by omega)

theorem hexHash_of_verify {uuid : UuidParser} {hmac : Hmac} {verifier : UrlVerifier} {hash : Bytes}
    {q : Values} {now : UInt64} {ok : VerifyOk}
    (h : verifier.verify uuid hmac hash q now = .ok ok) : HexHash hash := by
  unfold UrlVerifier.verify at h
  split at h
  · cases h
  · rename_i req hread
    unfold UrlVerifier.readQuery at hread
    split at hread
    · cases hread
    · rename_i hshape
      simp only [not_or, not_not] at hshape
      exact hshape

namespace Serving

variable {h : Handlers} {ρ : Type} {good : ρ → Bytes → Bytes → Prop} {allow : View h ρ → Op → Prop}
  {i n : Nat} {req : ρ} {w : View h ρ} {hash : Bytes}

/-! ## The source of a xorb -/

theorem satNow_fetchFn {siaId : Hash} {size : Int64} (hinv : Inv good w)
    (hleads : Leads w i hash n)
    (hgood : ∀ bytes : Bytes, (bytes.length : Int) = size.toInt →
      merkleHashHex h.blake3 bytes = hash → good req hash bytes) :
    (h.fetchFn hash siaId size).SatNow (draftDiscipline h ρ good allow) i req
      (fun w v => Leads w i hash n ∧ Accounted w v) w := by
  refine (satNow_cacheOpen (fun w w' hleads hr => hr.leads hash n hleads) ?_ hinv hleads).bind
    hinv ?_
  · intro w d e hleads
    exact hleads.mono (fun _ he => List.mem_cons_of_mem _ he) hleads.inFlight
  · rintro w₁ res hinv₁ ⟨hleads₁, -⟩
    cases res with
    | some file => exact ⟨hleads₁, nofun⟩
    | none => exact satNow_fetchAndCache hleads₁ hgood

/-- The outcome of `getXorbSource`: a good file that is open, or an error. -/
def Sourced (good : ρ → Bytes → Bytes → Prop) (i : Nat) (hash : Bytes) (w : View h ρ) :
    Except SourceError OpenSource → Prop
  | .ok src => Reading good w i hash src.fd
  | .error err => Accounted w (.error err : Except SourceError OpenSource)

theorem satNow_getXorbSource {siaId : Hash} {size : Int64} (hinv : Inv good w)
    (hhex : HexHash hash)
    (hgood : ∀ bytes : Bytes, (bytes.length : Int) = size.toInt →
      merkleHashHex h.blake3 bytes = hash → good req hash bytes) :
    (h.getXorbSource hash siaId size).SatNow (draftDiscipline h ρ good allow) i req
      (Sourced good i hash) w := by
  have hopen : ∀ w₁ : View h ρ, Inv good w₁ →
      (cacheOpen hash).SatNow (draftDiscipline h ρ good allow) i req
        (fun w r => True ∧ ∀ fd size, r = some (fd, size) → Reading good w i hash fd) w₁ :=
    fun w₁ hinv₁ => satNow_cacheOpen (fun _ _ _ _ => trivial) (fun _ _ _ _ => trivial) hinv₁ trivial
  refine (hopen w hinv).bind hinv ?_
  rintro w₁ res hinv₁ ⟨-, hread⟩
  cases res with
  | some file => exact hread file.1 file.2 rfl
  | none =>
      refine (satNow_missDo hhex fun w₂ n hinv₂ hleads =>
        satNow_fetchFn hinv₂ hleads hgood).bind hinv₁ ?_
      intro w₂ v hinv₂ hacc
      refine satNow_perform trivial ?_
      intro e s ms w₃ _ he hr hinv₃
      have hacc₃ : Accounted w₃ v :=
        (hacc.mono fun _ he => List.mem_cons_of_mem _ he).mono hr.log
      cases v with
      | error err =>
          intro err' hEq
          cases hEq
          exact hacc₃ err' rfl
      | ok _ =>
          refine (hopen w₃ hinv₃).bind hinv₃ ?_
          rintro w₄ res _ ⟨-, hread⟩
          cases res with
          | none => exact nofun
          | some file => exact hread file.1 file.2 rfl

/-! ## The response -/

/-- What a client is owed: one status line unless it is gone, and the whole object with a
`200`. -/
structure Delivered (h : Handlers) (cancelled : List Nat) (ctx : Nat) (hash : Bytes)
    (res : ResponseWriter) : Prop where
  oneLine : ctx ∉ cancelled → res.statusLines.length = 1
  whole : 200 ∈ res.statusLines → h.Complete hash res.body

theorem Delivered.of_refused {cancelled : List Nat} {ctx : Nat} {res : ResponseWriter}
    (href : ∃ status, res.statusLines = [status] ∧ status ≠ 200) :
    Delivered h cancelled ctx hash res := by
  obtain ⟨status, hlines, hne⟩ := href
  refine ⟨fun _ => by simp [hlines], ?_⟩
  intro hmem
  rw [hlines, List.mem_singleton] at hmem
  exact absurd hmem.symm hne

theorem Delivered.of_source {cancelled : List Nat} {ctx : Nat} {src : XorbSource} {size : Int64}
    {ranges : List Range} (hsize : size = h.sizes hash) (hsrc : h.Complete hash src.bytes) :
    Delivered h cancelled ctx hash (respond .new src size ranges) := by
  rcases respond_statusLines src size ranges with hlines | ⟨hlines, hbody⟩
  · exact .of_refused ⟨206, hlines, by decide⟩
  · refine ⟨fun _ => by simp [hlines], ?_⟩
    intro _
    have hlength : (src.bytes.length : Int) = size.toInt := by
      rw [hsize]
      exact hsrc.length_eq
    rw [hbody, sectionReader_whole hlength]
    exact hsrc

def Heeded (w : View h ρ) : Op → Prop
  | .clientGone ctx err => err.canceled = true → ctx ∈ w.store.cancelled
  | _ => True

/-- The rules of the disk for the gateway; as far as `P` is assumed, live clients are heeded. -/
abbrev gatewayDiscipline (h : Handlers) (ρ : Type) (P : Prop) : Lib.Discipline ρ (exec h) :=
  draftDiscipline h ρ (fun _ => h.Complete) fun w o => P → Heeded w o

theorem readAll_of_reading {fd : Nat} (hread : Reading good w i hash fd) :
    ∃ bytes, (files w).readAll fd = some bytes ∧ ∃ req, good req hash bytes := by
  obtain ⟨m, off, bytes, hfile, -, hbytes, e, -, -, hgood⟩ := hread.file
  exact ⟨bytes, by simp [FileSystem.readAll, hfile, hbytes], e.request, hgood⟩

theorem satNow_serveAdmitted {P : Prop} {ctx : Nat} {a : Admitted} (hinv : Inv (fun _ => h.Complete) w)
    (hhex : HexHash hash) (hsize : a.size = h.sizes hash) :
    (h.serveAdmitted ctx hash a).SatNow (gatewayDiscipline h ρ P) i req
      (fun w res => P → Delivered h w.store.cancelled ctx hash res) w := by
  have hgood : ∀ bytes : Bytes, (bytes.length : Int) = a.size.toInt →
      merkleHashHex h.blake3 bytes = hash → h.Complete hash bytes := by
    intro bytes hlength hdigest
    rw [hsize] at hlength
    exact ⟨hlength, hdigest⟩
  refine (satNow_getXorbSource hinv hhex hgood).bind hinv ?_
  intro w₁ v _ hsrc
  cases v with
  | error err =>
      refine satNow_perform (fun e hEq => hsrc e (by rw [hEq])) ?_
      intro e s gone w₂ hallow he hr _
      cases e with
      | quiet =>
          cases he
          cases hgone : decide (ctx ∈ w₁.store.cancelled) || err.canceled with
          | false => exact fun _ => .of_refused ⟨502, rfl, by decide⟩
          | true =>
              -- the client is gone, or the error was somebody else's cancellation
              intro hP
              have hctx : ctx ∈ w₁.store.cancelled := by
                rcases Bool.or_eq_true_iff.1 hgone with hctx | hcanceled
                · exact of_decide_eq_true hctx
                · exact hallow hP hcanceled
              exact ⟨fun hlive => absurd (hr.cancelled ctx hctx) hlive, nofun⟩
      | _ => cases he
  | ok src =>
      refine satNow_perform trivial ?_
      intro e s bytes w₂ _ he hr _
      cases e with
      | quiet =>
          cases he
          obtain ⟨bytes, hbytes, -, hcomplete⟩ := readAll_of_reading hsrc
          have hread₂ : Owns w₂ i src.fd :=
            (hsrc.owns.mono fun _ he => List.mem_cons_of_mem _ he).mono hr.log
          have hsource : h.Complete hash ((files w₁).readAll src.fd |>.getD []) := by
            rw [hbytes]
            exact hcomplete
          refine ⟨hread₂, ?_⟩
          intro e s r _ _ w₃ _ _
          exact fun _ => .of_source hsize hsource
      | _ => cases he

/-- What the end of a request's program owes its client. -/
def Owed (h : Handlers) (req : Request) (w : View h Request) (a : Option ResponseWriter) : Prop :=
  ∀ ctx r now, req = .serve ctx r now →
    ∃ res, a = some res ∧ Delivered h w.store.cancelled ctx r.hash res

theorem satNow_code {P : Prop} {req : Request} {w : View h Request} (hinv : Inv (fun _ => h.Complete) w) :
    (code h req).SatNow (gatewayDiscipline h Request P) i req (fun w a => P → Owed h req w a)
      w := by
  cases req with
  | cancel ctx =>
      refine ⟨trivial, ?_⟩
      intro e s r _ _ w₁ _ _ _
      exact nofun
  | serve ctx r now =>
      have hserve : (h.serveXorb ctx r now).SatNow (gatewayDiscipline h Request P) i
          (.serve ctx r now) (fun w res => P → Delivered h w.store.cancelled ctx r.hash res) w := by
        unfold Handlers.serveXorb
        split
        · rename_i verr _
          exact fun _ => .of_refused ⟨verr.status, rfl, verr.status_ne⟩
        · rename_i ok hverify
          have hhex := hexHash_of_verify hverify
          refine satNow_perform trivial ?_
          intro e s row w₁ _ he _ hinv₁
          have hrow : ∀ siaId size, row = .ok (siaId, size) → size = h.sizes r.hash := by
            intro siaId size hEq
            subst hEq
            cases e with
            | row id =>
                cases he
                rfl
            | noRow e => cases he
            | _ => cases he
          split
          · rename_i res hadm
            exact fun _ => .of_refused (admission_refused hadm)
          · rename_i a hadm
            have hlookup := admission_row hadm
            exact satNow_serveAdmitted hinv₁ hhex (hrow a.siaId a.size hlookup)
      refine hserve.bind hinv ?_
      intro w₁ res _ hdel hP ctx' r' now' hEq
      cases hEq
      exact ⟨res, rfl, hdel hP⟩

/-! ## Whole runs -/

variable {maxBytes : Int} {found : FoundDisk} {c c' : Server h} {tr : List (Transition h)}

/-- Every request that has ended delivered what it owed. -/
def Delivers (c : Server h) : Prop :=
  ∀ i ctx r now a, c.tasks i = some ⟨.serve ctx r now, some (.done a)⟩ →
    ∃ res, a = some res ∧ Delivered h c.store.cancelled ctx r.hash res

/-- A request whose client is still there is about to handle an error that wraps
`context.Canceled`. -/
def Abandons (c : Server h) (a : Step) : Prop :=
  ∃ i e req ctx err k, a = .call i e ∧
    c.tasks i = some ⟨req, some (.call (.clientGone ctx err) k)⟩ ∧
    err.canceled = true ∧ ctx ∉ c.store.cancelled

/-- A request that takes its client for gone writes nothing. -/
def Silent (req : Request) : (o : Op) → (Res o → Code (Option ResponseWriter)) → Prop
  | .clientGone ctx _, k => (∃ r now, req = .serve ctx r now) ∧ k true = .done (some .new)
  | _, _ => True

/-- The operations before a request looks at its client. -/
def Op.beforeReply : Op → Prop
  | .clientGone _ _ => False
  | _ => True

def Op.ofSource : Op → Prop
  | .lookupXorb _ => False
  | .readAll _ => False
  | .clientGone _ _ => False
  | .cancel _ => False
  | _ => True

theorem Op.ofSource.beforeReply {o : Op} (ho : o.ofSource) : o.beforeReply := by
  cases o with
  | clientGone ctx err => exact ho
  | _ => trivial

/-- The operations of `Cache.Open`. -/
theorem uses_cacheOpen {P : Op → Prop} {hash : Bytes} (hindex : P (.index hash))
    (hopen : ∀ path, P (.openFile path)) (hdrop : ∀ path, P (.dropStale hash path)) :
    (cacheOpen hash).Uses P := by
  refine .perform_bind hindex ?_
  rintro (_ | ⟨path, size⟩)
  · trivial
  · refine .perform_bind (hopen path) ?_
    rintro (e | fd)
    · exact .perform_bind (hdrop path) fun _ => trivial
    · trivial

theorem ofSource_cacheOpen (hash : Bytes) : (cacheOpen hash).Uses Op.ofSource :=
  uses_cacheOpen trivial (fun _ => trivial) fun _ => trivial

theorem uses_onDisk {α : Type} (p : Gateway.Code α) : (onDisk p).Uses Op.ofSource :=
  Prog.uses_embed _ (fun _ => trivial) p

theorem uses_fetchFn (hash : Bytes) (siaId : Hash) (size : Int64) :
    (h.fetchFn hash siaId size).Uses Op.ofSource := by
  refine (ofSource_cacheOpen hash).bind ?_
  rintro (_ | file)
  · refine .perform_bind trivial ?_
    intro d
    refine (uses_onDisk _).bind ?_
    intro p
    exact .perform_bind trivial fun _ => trivial
  · trivial

theorem uses_getXorbSource (hash : Bytes) (siaId : Hash) (size : Int64) :
    (h.getXorbSource hash siaId size).Uses Op.ofSource := by
  refine (ofSource_cacheOpen hash).bind ?_
  rintro (_ | file)
  · refine Prog.Uses.bind ?_ ?_
    · refine .perform_bind trivial ?_
      rintro (n | n)
      · refine (uses_fetchFn hash siaId size).bind ?_
        intro v
        exact .perform_bind trivial fun _ => trivial
      · exact ⟨trivial, fun _ => trivial⟩
    · intro v
      refine .perform_bind trivial ?_
      intro ms
      cases v with
      | error err => trivial
      | ok _ =>
          refine (ofSource_cacheOpen hash).bind ?_
          rintro (_ | file) <;> trivial
  · trivial

theorem silent_of_beforeReply {req : Request} (o : Op) (k : Res o → Code (Option ResponseWriter))
    (ho : o.beforeReply) : Silent req o k := by
  cases o with
  | clientGone ctx err => exact absurd ho id
  | _ => trivial

theorem silent_serveAdmitted {ctx : Nat} {r : XorbRequest} {now : UInt64} (a : Admitted) :
    (h.serveAdmitted ctx r.hash a >>= fun res => Prog.done (some res)).Always
      (Silent (.serve ctx r now)) := by
  rw [Handlers.serveAdmitted, Prog.bind_assoc]
  refine (uses_getXorbSource r.hash a.siaId a.size).always_bind
    (fun o k ho => silent_of_beforeReply o k ho.beforeReply) ?_
  rintro (err | src)
  · refine ⟨⟨⟨r, now, rfl⟩, rfl⟩, ?_⟩
    rintro (_ | _) <;> trivial
  · exact ⟨trivial, fun _ => ⟨trivial, fun _ => trivial⟩⟩

theorem silent_code (req : Request) : (code h req).Always (Silent req) := by
  cases req with
  | cancel ctx => exact ⟨trivial, fun _ => trivial⟩
  | serve ctx r now =>
      change (h.serveXorb ctx r now >>= fun res => Prog.done (some res)).Always _
      unfold Handlers.serveXorb
      split
      · trivial
      · refine ⟨trivial, ?_⟩
        intro row
        simp only [Prog.bind]
        split
        · trivial
        · rename_i a _
          exact silent_serveAdmitted a

/-- Every task of a run is silent where its client is gone. -/
theorem silent_of_run (hrun : Run h maxBytes found tr c) :
    ∀ i req p, c.tasks i = some ⟨req, some p⟩ → p.Always (Silent req) := by
  have hreach : Reaches (code h) (exec h) (fun _ _ => True) _ c := ⟨tr, hrun, fun _ _ => trivial⟩
  apply hreach.invariant (I := fun c : Server h =>
    ∀ i req p, c.tasks i = some ⟨req, some p⟩ → p.Always (Silent req))
  · intro i req p ht
    cases ht
  · intro c₁ a c₂ hall _ hstep
    exact always_step hstep silent_code hall

theorem secure_of_run {P : Prop} (hrun : Run h maxBytes found tr c)
    (hall : P → ∀ st ∈ tr, ¬Abandons st.1 st.2.1) :
    Secure (gatewayDiscipline h Request P) (fun _ req w a => P → Owed h req w a) c := by
  have hreach : Reaches (code h) (exec h) (fun c a => P → ¬Abandons c a) _ c :=
    ⟨tr, hrun, fun st hst hP => hall hP st hst⟩
  apply hreach.invariant (I := Secure (gatewayDiscipline h Request P)
    fun _ req w a => P → Owed h req w a)
  · refine ⟨Inv.start maxBytes found, ?_⟩
    intro i req p ht
    cases ht
  · intro c₁ a c₂ hsecure hnot hstep
    refine hsecure.step hstep (fun i req w hinv => satNow_code hinv) ?_
    rintro i e req o k s r rfl ht _ hP
    cases o with
    | clientGone ctx err =>
        intro hcanceled
        by_contra hlive
        exact hnot hP ⟨i, e, req, ctx, err, k, rfl, ht, hcanceled, hlive⟩
    | _ => trivial

theorem delivers_of_run (hrun : Run h maxBytes found tr c)
    (hall : ∀ st ∈ tr, ¬Abandons st.1 st.2.1) : Delivers c := by
  have hsecure := secure_of_run (P := True) hrun fun _ => hall
  intro i ctx r now a ht
  have howed := hsecure.2 i _ _ ht c.toWorld (Rely.refl i _) hsecure.1
  exact howed trivial ctx r now rfl

/-- A cancellation that a live client suffers from was the end of a download. -/
theorem downloaded_of_abandons (hrun : Run h maxBytes found tr c) {a : Step}
    (habandons : Abandons c a) : ∃ err, err.canceled = true ∧ Downloaded c.toWorld err := by
  obtain ⟨i, e, req, ctx, err, k, -, ht, hcanceled, -⟩ := habandons
  have hsecure := secure_of_run (P := False) hrun False.elim
  obtain ⟨hpre, -⟩ := hsecure.2 i req _ ht c.toWorld (Rely.refl i _) hsecure.1
  cases err with
  | siaDownload err => exact ⟨err, hcanceled, hpre err rfl⟩
  | put err => cases hcanceled
  | openAfterFetch => cases hcanceled

theorem not_delivers_of_abandons (hrun : Run h maxBytes found tr c) {a : Step}
    (hstep : c.step (code h) (exec h) a = some c') (habandons : Abandons c a) : ¬Delivers c' := by
  obtain ⟨i, e, req, ctx, err, k, rfl, ht, hcanceled, hlive⟩ := habandons
  obtain ⟨⟨r, now, rfl⟩, hsilent⟩ := (silent_of_run hrun i req _ ht).1
  intro hdelivers
  rcases Pool.step_cases hstep with ⟨_, _, hact, -⟩ |
    ⟨j, e', req', o, k', s, gone, hact, ht', he, rfl⟩ | ⟨_, _, _, hact, -⟩
  · cases hact
  · cases hact
    cases ht.symm.trans ht'
    cases e with
    | quiet =>
        simp only [exec, hcanceled, Bool.or_true] at he
        cases he
        -- the handler has returned without a status line
        have hdone : (k true : Code (Option ResponseWriter)) = .done (some .new) := hsilent
        have ht₂ : Function.update c.tasks i (some ⟨.serve ctx r now, some (k true)⟩) i =
            some ⟨.serve ctx r now, some (.done (some .new))⟩ := by
          rw [Function.update_self, hdone]
        obtain ⟨res, hres, hdel⟩ := hdelivers i ctx r now _ ht₂
        cases hres
        have hlines := hdel.oneLine hlive
        cases hlines
    | _ => cases he
  · cases hact

/-- In a run every request that ends delivers, exactly when no request with a live client handles
an error that wraps `context.Canceled`. -/
theorem delivers_iff (hrun : Run h maxBytes found tr c) :
    (∀ st ∈ tr, Delivers st.2.2) ↔ ∀ st ∈ tr, ¬Abandons st.1 st.2.1 := by
  constructor
  · intro hdelivers st hst habandons
    obtain ⟨tr', hrun', -⟩ : Reaches (code h) (exec h) (fun _ _ => True) _ st.1 :=
      hrun.source_reaches (fun _ _ => trivial) st hst
    exact not_delivers_of_abandons hrun' (hrun.step_eq st hst) habandons (hdelivers st hst)
  · intro hall st hst
    obtain ⟨tr', hrun', hall'⟩ : Reaches (code h) (exec h) (fun c a => ¬Abandons c a) _ st.2.2 :=
      hrun.target_reaches hall st hst
    exact delivers_of_run hrun' hall'

def abandonsCheck (c : Server h) : Step → Bool
  | .call i _ =>
      match c.tasks i with
      | some ⟨_, some (.call (.clientGone ctx err) _)⟩ => err.canceled && ctx ∉ c.store.cancelled
      | _ => false
  | _ => false

theorem not_abandons_of_check (c : Server h) (a : Step) (hcheck : (!abandonsCheck c a) = true) :
    ¬Abandons c a := by
  rintro ⟨i, e, req, ctx, err, k, rfl, ht, hcanceled, hlive⟩
  simp [abandonsCheck, ht, hcanceled, hlive] at hcheck

/-- Client 0 leaves while its request downloads; the request of client 1 waits for the same
xorb. -/
def cancelledLead : List Step :=
  [.spawn 0 (.serve 0 sampleRequest 1999999999), .spawn 1 (.serve 1 sampleRequest 1999999999)] ++
    callsOf 0 [.row (Hash.fill 2), .quiet, .quiet] ++
    callsOf 1 [.row (Hash.fill 2), .quiet, .quiet] ++
    [.spawn 2 (.cancel 0), .call 2 .quiet] ++
    callsOf 0 ([.quiet, .download ⟨[], some ⟨lit "context canceled", true⟩⟩] ++
      [.ok, .ok, .ok, .ok, .ok].map .disk ++ [.quiet, .quiet]) ++
    callsOf 1 [.quiet, .elapsed 40, .quiet]

/-- The request of client 1 ends without a status line, and client 1 is still there. -/
theorem not_delivers_cancelledLead :
    ¬∀ (h : Handlers) (maxBytes : Int) (found : FoundDisk) (tr : List (Transition h))
      (c : Server h), Run h maxBytes found tr c → Delivers c := by
  intro hclaim
  have heval : ((Pool.init (State.new sampleHandlers 0 emptyDisk)).runChecked
      (code sampleHandlers) (exec sampleHandlers) (fun _ _ => true) cancelledLead).map
      (fun c => decide (ended c 1 = some (.serve 1 sampleRequest 1999999999, some .new) ∧
        1 ∉ c.store.cancelled)) = some true := by
    decide +kernel
  obtain ⟨tr, c, hrun, -, hP⟩ : ∃ tr c, Run sampleHandlers 0 emptyDisk tr c ∧
      (∀ st ∈ tr, True) ∧ _ := exists_run heval fun _ _ _ => trivial
  obtain ⟨hended, hlive⟩ := of_decide_eq_true hP
  obtain ⟨res, hres, hdel⟩ := hclaim _ _ _ tr c hrun 1 1 _ _ _ (tasks_of_ended hended)
  cases hres
  have hlines := hdel.oneLine hlive
  cases hlines

end Serving

end Gateway
end OpenWeights
