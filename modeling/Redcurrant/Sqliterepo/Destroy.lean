import Redcurrant.Sqliterepo.Version

/-!
# DESTROY の受信

`do_destroy` と `sqlx_remote_execute_DESTROY_many`。master は peer がどれも成功すれば base を消し、失敗があれば、消した peer
に戻そうとする。
-/

namespace Redcurrant.Sqliterepo

open Infra

/-! ## 定義 -/

/-- `CODE_REDIRECT`・`CODE_NOT_FOUND`・`CODE_CONTAINER_NOTFOUND` -/
def codeRedirect : Int := 303
def codeNotFound : Int := 404
def codeContainerNotfound : Int := 431

/-- DESTROY の間に起こること。`pending` は transaction の開いている base、`opened` は open の結果、`marked` は
`sq3->deleted`、`dump` と `restore` は戻す処理、`deleteOn` は `flag_delete_on`、`exit` は `election_exit`。 -/
structure DestroyEnv where
  pending : Option (Bytes × Bytes)
  opened : Option GError
  marked : Bool
  getPeers : Except GError (Option (List Bytes))
  clients : Bool
  loop : Option GError
  reply : Bytes → Option GError
  (dump restore : Option GError)
  deleteOn : Bool
  (close exit : Option GError)

def checkedOpen (env : DestroyEnv) (base type : Bytes) : Option GError :=
  match env.pending with
  | some (n, t) =>
    if n ≠ base ∨ t ≠ type then
      some ⟨400, "Another base is still open [" ++ text n ++ "].[" ++ text t ++ "]"⟩
    else none
  | none => env.opened.map fun e =>
    if e.code ≠ codeRedirect then prefixError "Open/Lock: " e else e

/-- base がすでに無いことを言う error -/
def isGone (e : GError) : Bool := e.code == codeContainerNotfound || e.code == codeNotFound

/-- `sqlx_remote_execute_DESTROY_many`。最初の失敗を返す。 -/
def remoteExecuteDestroyMany (env : DestroyEnv) (peers : List Bytes) : Option GError :=
  if env.clients then
    env.loop.or (peers.findSome? fun p => (env.reply p).bind fun e =>
      if isGone e then none
      else some (prefixError ("Failed to destroy base on " ++ text p ++ ": ") e))
  else some ⟨0, "Failed to create gridd clients"⟩

/-- peer に DESTROY を送る部分。`@` の無い名前では `strchr` の NULL を読んで落ちる。 -/
def destroyPeers (env : DestroyEnv) (base : Bytes) : Option (Option GError) :=
  match env.getPeers with
  | .error e => some (some e)
  | .ok none => some none
  | .ok (some peers) =>
    if 64 ∈ base then
      some ((remoteExecuteDestroyMany env peers).map fun e =>
        match env.dump.or env.restore with
        | some l => prefixError ("Restoration failed (" ++ l.message ++ ") after partial destroy: ") e
        | none => e)
    else none

/-- 答えと、閉じるときの削除の印 -/
structure DestroyReply where
  err : Option GError
  deleted : Bool

/-- `do_destroy`。閉じた結果が `err` を上書きする。`flag_delete_on` でなければ、閉じるとき印が消える。 -/
def doDestroy (env : DestroyEnv) (base type : Bytes) (isLocal : Bool) : Option DestroyReply :=
  match checkedOpen env base type with
  | some e => some ⟨some e, env.marked⟩
  | none =>
    (if isLocal then some none else destroyPeers env base).map fun err =>
      ⟨env.close.or (if isLocal then none else env.exit),
        (err.isNone || env.marked) && env.deleteOn⟩

/-! ## 成功の答え -/

/-- DESTROY を送られる peer -/
def Asked (env : DestroyEnv) (isLocal : Bool) (p : Bytes) : Prop :=
  isLocal = false ∧ ∃ peers, env.getPeers = .ok (some peers) ∧ p ∈ peers

/-- peer での削除の成功。base がすでに無いことも成功。 -/
def DestroyedOn (env : DestroyEnv) (p : Bytes) : Prop :=
  env.clients = true ∧ env.loop = none ∧ ∀ e, env.reply p = some e → isGone e = true

/-- 開く、閉じる、選挙から抜ける、のどれも失敗しない -/
def Closes (env : DestroyEnv) (base type : Bytes) (isLocal : Bool) : Prop :=
  checkedOpen env base type = none ∧ env.close = none ∧
    (isLocal = false → env.exit = none ∧ ∀ peers, env.getPeers = .ok (some peers) → 64 ∈ base)

/-- どの peer でも削除が成功する。送る先が無ければ、印のある base でもよい。 -/
def PeersDestroyed (env : DestroyEnv) : Prop :=
  match env.getPeers with
  | .error _ => env.marked = true
  | .ok none => True
  | .ok (some peers) => (∀ p ∈ peers, DestroyedOn env p) ∧
      (peers = [] → env.clients = true ∧ env.loop = none ∨ env.marked = true)

variable {env : DestroyEnv} {base type : Bytes} {isLocal : Bool}

theorem remoteExecuteDestroyMany_eq_none {peers : List Bytes} :
    remoteExecuteDestroyMany env peers = none ↔ env.clients = true ∧ env.loop = none ∧
      ∀ p ∈ peers, ∀ e, env.reply p = some e → isGone e = true := by
  unfold remoteExecuteDestroyMany
  cases env.clients with
  | false => simp
  | true => simp

theorem forall_doDestroy {P : Bool → Prop} :
    (∀ out, doDestroy env base type isLocal = some out → out.err = none → P out.deleted) ↔
      (checkedOpen env base type = none → env.close = none → (isLocal = false → env.exit = none) →
        ∀ err, (if isLocal then some none else destroyPeers env base) = some err →
          P ((err.isNone || env.marked) && env.deleteOn)) := by
  unfold doDestroy
  cases checkedOpen env base type with
  | some e => simp
  | none =>
    constructor
    · intro h _ hclose hexit err herr
      refine h _ (by rw [herr]; rfl) ?_
      cases isLocal <;> simp [hclose, hexit]
    · intro h out hout herr
      obtain ⟨err, he, rfl⟩ := Option.map_eq_some_iff.mp hout
      obtain ⟨hclose, hexit⟩ := Option.or_eq_none_iff.mp herr
      exact h rfl hclose (by rintro rfl; exact hexit) err he

/-- **成功の答えが削除の印と、送った DESTROY の成功を意味する条件。** -/
theorem destroy_success_iff (env : DestroyEnv) (base type : Bytes) (isLocal : Bool) :
    (∀ out, doDestroy env base type isLocal = some out → out.err = none →
      out.deleted = true ∧ ∀ p, Asked env isLocal p → DestroyedOn env p) ↔
      (Closes env base type isLocal →
        env.deleteOn = true ∧ (isLocal = false → PeersDestroyed env)) := by
  rw [forall_doDestroy (P := fun d => d = true ∧ ∀ p, Asked env isLocal p → DestroyedOn env p)]
  unfold Closes Asked
  cases isLocal with
  | true => simp
  | false =>
    unfold destroyPeers PeersDestroyed
    cases env.getPeers with
    | error e => simp [and_comm (a := env.marked = true)]
    | ok o =>
      cases o with
      | none => simp
      | some peers =>
        by_cases hbase : 64 ∈ base
        · -- どの peer でも成功すれば、`err` は送る先が無いときだけ残る
          have hmany : (∀ p ∈ peers, DestroyedOn env p) →
              (remoteExecuteDestroyMany env peers = none ∨ env.marked = true ↔
                (peers = [] → env.clients = true ∧ env.loop = none ∨ env.marked = true)) := by
            intro hall
            rw [remoteExecuteDestroyMany_eq_none]
            cases peers with
            | nil => simp
            | cons p ps =>
              obtain ⟨hclients, hloop, -⟩ := hall p List.mem_cons_self
              refine iff_of_true (.inl ⟨hclients, hloop, fun q hq => (hall q hq).2.2⟩) nofun
          simp [hbase]
          refine forall₃_congr fun _ _ _ => ⟨?_, ?_⟩
          · rintro ⟨⟨hmarked, hon⟩, hall⟩
            exact ⟨hon, hall, (hmany hall).mp hmarked⟩
          · rintro ⟨hon, hall, hempty⟩
            exact ⟨⟨(hmany hall).mpr hempty, hon⟩, hall⟩
        · simp [hbase]

def failingPeer : DestroyEnv :=
  ⟨none, none, false, .ok (some [ascii "peer"]), true, none, fun _ => some ⟨500, "busy"⟩, none, none,
    true, none, none⟩

/-- peer の失敗は残らず、印の無い base に成功が答えられる -/
theorem destroy_answers_success :
    (doDestroy failingPeer (ascii "1@AB") (ascii "sqlx") false).map (fun out => (out.err, out.deleted)) =
      some (none, false) ∧ Asked failingPeer false (ascii "peer") ∧
    ¬DestroyedOn failingPeer (ascii "peer") := by
  refine ⟨rfl, ⟨rfl, [ascii "peer"], rfl, List.mem_singleton.mpr rfl⟩, fun h => ?_⟩
  exact absurd (h.2.2 ⟨500, "busy"⟩ rfl) (by decide)

end Redcurrant.Sqliterepo
