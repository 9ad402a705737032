import Redcurrant.Server.HttpParse

/-!
# 続けて届く HTTP の request

slab に入った次の request の初めは読み捨てられる（`http_same_iff`）。
-/

namespace Redcurrant.Server

open Infra List

/-! ## request の列 -/

/-- 応答の後も接続を続けるよう求めている -/
def HttpMessage.keepsAlive (r : HttpMessage) : Bool :=
  (treeLookup r.request.treeHeaders (ascii "connection")).any (strcaseeq (ascii "Keep-Alive"))

/-- 接続を続ける request -/
structure HttpText extends HttpMessage where
  cmd_ne : cmd ≠ []
  keepAlive : toHttpMessage.keepsAlive = true

def encodeAll (rs : List HttpMessage) : Bytes := rs.flatMap HttpMessage.encode

def httpStream (reqs : List HttpText) : Bytes := encodeAll (reqs.map (·.toHttpMessage))

/-- どの handler も失敗しない -/
def HttpDispatcher.NeverAborts (d : HttpDispatcher) : Prop := ∀ past q, d.aborts past q = false

/-- どの slab も、読んでいる request の終わりを越えない。`p` は読んだ長さ、`ts` は request の長さ。 -/
def staysWithin : Nat → List Nat → List Nat → Bool
  | _, _, [] => true
  | p, [], n :: ns => n == 0 && staysWithin p [] ns
  | p, t :: ts, n :: ns =>
    if p + n < t then staysWithin (p + n) (t :: ts) ns
    else p + n == t && staysWithin 0 ts ns

theorem encode_ne_nil (r : HttpMessage) : r.encode ≠ [] := by
  simp [HttpMessage.encode]

theorem length_encode_pos (r : HttpMessage) : 0 < r.encode.length :=
  length_pos_iff.mpr (encode_ne_nil r)

/-! ## slab の列が運ぶ request -/

/-- `p` まで読んだ所から、slab の列 `xs` が request の列 `rs` を運ぶ -/
inductive Chunked : Bytes → List HttpMessage → List Bytes → Prop
  | nil : Chunked [] [] []
  | more {p x t : Bytes} {r : HttpMessage} {rs : List HttpMessage} {xs : List Bytes} :
      t ≠ [] → p ++ x ++ t = r.encode → Chunked (p ++ x) (r :: rs) xs →
      Chunked p (r :: rs) (x :: xs)
  | last {p x extra : Bytes} {r : HttpMessage} {rs : List HttpMessage} {xs : List Bytes} :
      p ++ x = r.encode ++ extra → p.length < r.encode.length → Chunked [] rs xs →
      Chunked p (r :: rs) (x :: xs)

/-- 読んだ所までの文脈と、渡した request -/
def Progress (all : List HttpRequest) (ctx : HttpCtx) (handed : List HttpRequest)
    (xs : List Bytes) : Prop :=
  ∃ p rs, ctx = (httpParse .init p).1 ∧ Chunked p rs xs ∧ (∀ r ∈ rs, r.keepsAlive = true) ∧
    handed ++ rs.map (·.request) = all

section

variable {d : HttpDispatcher} {all : List HttpRequest}

theorem manageRequest_keeps (hd : d.NeverAborts) {r : HttpMessage} (hr : r.keepsAlive = true)
    (past : List HttpRequest) (close : Bool) :
    httpManageRequest d past r.request close = (false, false) := by
  have hversion : r.request.version.all (strcaseeq (ascii "HTTP/1.1")) = true := by
    show strcaseeq (ascii "HTTP/1.1") (ascii "HTTP/1.1") = true
    decide
  have hclose : r.request.closeAfter close = false := by
    rw [HttpRequest.closeAfter, ← HttpMessage.keepsAlive, hr]
    rfl
  have hset : ¬ (r.request.reqUri = none ∨ r.request.cmd = none) := by
    rintro (h | h) <;> cases h
  rw [httpManageRequest, if_neg hset, hd, hclose]

variable {c : HttpClient}

theorem Progress.parsed (hd : d.NeverAborts) {x : Bytes} {xs : List Bytes}
    (h : Progress all c.ctx c.handed (x :: xs)) :
    (c.parsed d x).2 = false ∧ Progress all (c.parsed d x).1.ctx (c.parsed d x).1.handed xs := by
  obtain ⟨p, rs, hctx, hchunked, hkeep, hall⟩ := h
  cases hchunked with
  | @more _ _ t r rs _ htne htext hrest =>
    obtain ⟨ctx, hparse, -⟩ := httpParse_encode r
    obtain ⟨hnone, hnext⟩ := resumable_httpParse.next_more hparse htext htne
    rw [← hctx] at hnone hnext
    rcases hx : httpParse c.ctx x with ⟨ctx', n, v⟩
    rw [hx] at hnone hnext
    cases hnone
    rw [HttpClient.parsed, hx]
    exact ⟨rfl, p ++ x, r :: rs, hnext, hrest, hkeep, hall⟩
  | @last _ _ extra r rs _ htext hlt hrest =>
    obtain ⟨ctx, hparse, hrequest⟩ := httpParse_encode r
    obtain ⟨hsome, hnext⟩ := resumable_httpParse.next_done hparse htext hlt
    rw [← hctx] at hsome hnext
    rcases hx : httpParse c.ctx x with ⟨ctx', n, v⟩
    rw [hx] at hsome hnext
    obtain rfl : v = some .success := hsome
    obtain rfl : ctx' = ctx := hnext
    rw [HttpClient.parsed, hx]
    obtain ⟨hr, hkeep⟩ := forall_mem_cons.mp hkeep
    simp only [hrequest, manageRequest_keeps hd hr, Bool.or_false, true_and]
    refine ⟨[], rs, rfl, hrest, hkeep, ?_⟩
    rw [← hall, map_cons, append_assoc, singleton_append]

theorem Progress.notifyInput (hd : d.NeverAborts) {more : List Bytes}
    (h : Progress all c.ctx c.handed (chunks c.input ++ more)) :
    Progress all (c.notifyInput d).ctx (c.notifyInput d).handed more ∧
      chunks (c.notifyInput d).input = [] := by
  refine loop_rule (I := fun s : HttpClient => Progress all s.ctx s.handed (chunks s.input ++ more))
    (Q := fun (s : HttpClient) _ => Progress all s.ctx s.handed more ∧ chunks s.input = []) ?_ ?_
    { c with close := true } h
  · intro s s' hs ht
    rcases httpTurn_cases d s with ⟨-, hturn⟩ | ⟨x, q, -, hchunks, -, hturn⟩ <;> rw [hturn] at ht
    · cases ht
    rw [hchunks] at hs
    obtain ⟨hdone, hnext⟩ := hs.parsed hd
    rw [hdone] at ht
    cases ht
    exact hnext
  intro s s' r hs ht
  rcases httpTurn_cases d s with ⟨hnil, hturn⟩ | ⟨x, q, -, hchunks, -, hturn⟩ <;> rw [hturn] at ht
  · cases ht
    rw [hnil] at hs
    exact ⟨hs, rfl⟩
  rw [hchunks] at hs
  rw [(hs.parsed hd).1] at ht
  cases ht

theorem chunks_feed (q slabs : List Slab) : chunks (feed q slabs) = chunks q ++ chunks slabs := by
  rw [feed, chunks_append]
  congr 1
  induction slabs with
  | nil => rfl
  | cons ds slabs ih =>
    rw [filter_cons]
    split
    · rw [chunks, map_cons, filter_cons, ← chunks, ih, chunks, chunks, map_cons, filter_cons]
    · rename_i hstop
      rw [chunks_cons_of_nil (ds.bytes_of_stop hstop), ih]

theorem Progress.manageInput (hd : d.NeverAborts) {slabs : List Slab} {more : List Bytes}
    (hinput : chunks c.input = []) (h : Progress all c.ctx c.handed (chunks slabs ++ more)) :
    Progress all (c.manageInput d slabs).ctx (c.manageInput d slabs).handed more ∧
      chunks (c.manageInput d slabs).input = [] := by
  have hfeed := chunks_feed c.input slabs
  rw [hinput, nil_append] at hfeed
  rw [HttpClient.manageInput]
  rcases sequenceHasData_chunks (feed c.input slabs) with ⟨heq, hnil⟩ | ⟨ds, q, heq, hds, hchunks, -⟩
    <;> rw [heq]
  · rw [← hfeed, hnil] at h
    exact ⟨h, rfl⟩
  refine Progress.notifyInput hd ?_
  rwa [← hfeed, hchunks, ← chunks_cons_of_hasData hds] at h

theorem Progress.foldl (hd : d.NeverAborts) : ∀ (reads : List (List Slab)) {c : HttpClient},
    chunks c.input = [] → Progress all c.ctx c.handed (chunks reads.flatten) →
    Progress all (reads.foldl (HttpClient.manageInput d) c).ctx
      (reads.foldl (HttpClient.manageInput d) c).handed []
  | [], _, _, h => h
  | slabs :: reads, c, hinput, h => by
    rw [flatten_cons, chunks_append] at h
    obtain ⟨hnext, hinput'⟩ := Progress.manageInput hd hinput h
    exact Progress.foldl hd reads hinput' hnext

/-- **slab の列が運ぶ request がそのまま渡る。** -/
theorem handed_of_chunked (hd : d.NeverAborts) {rs : List HttpMessage}
    (hkeep : ∀ r ∈ rs, r.keepsAlive = true) {reads : List (List Slab)}
    (h : Chunked [] rs (chunks reads.flatten)) : httpHanded d reads = rs.map (·.request) := by
  have hstart : Progress (rs.map (·.request)) HttpClient.init.ctx [] (chunks reads.flatten) :=
    ⟨[], rs, rfl, h, hkeep, rfl⟩
  obtain ⟨p, rs', -, hend, -, hall⟩ := Progress.foldl hd reads (c := .init) rfl hstart
  cases hend
  rwa [map_nil, append_nil] at hall

end

/-! ## 終わりを越えない切り方 -/

theorem chunked_of_within : ∀ {slabs : List Slab} {p : Bytes} {rs : List HttpMessage},
    p ++ content slabs = encodeAll rs → (∀ r ∈ rs.head?, p.length < r.encode.length) →
    staysWithin p.length (rs.map (·.encode.length)) (slabs.map (·.bytes.length)) = true →
    Chunked p rs (chunks slabs)
  | [], p, [], hbytes, _, _ => by
    obtain rfl : p = [] := (append_eq_nil_iff.mp hbytes).1
    exact .nil
  | [], p, r :: rs, hbytes, hlt, _ => by
    have hlen : p = r.encode ++ encodeAll rs := (append_nil p).symm.trans hbytes
    have hlt := hlt r rfl
    rw [hlen, length_append] at hlt
    omega
  | ds :: slabs, p, rs, hbytes, hlt, hwithin => by
    rw [content_cons] at hbytes
    by_cases hnil : ds.bytes = []
    · rw [hnil] at hbytes
      rw [chunks_cons_of_nil hnil]
      refine chunked_of_within hbytes hlt ?_
      rw [map_cons, hnil, length_nil] at hwithin
      cases rs with
      | nil => exact (Bool.and_eq_true_iff.mp hwithin).2
      | cons r rs => rwa [map_cons, staysWithin, Nat.add_zero, if_pos (hlt r rfl)] at hwithin
    rw [chunks_cons_of_hasData (Slab.hasData_iff.mpr hnil)]
    cases rs with
    | nil =>
      have := (append_eq_nil_iff.mp (append_eq_nil_iff.mp hbytes).2).1
      exact absurd this hnil
    | cons r rs =>
      rw [← append_assoc] at hbytes
      have hbytes' : p ++ ds.bytes ++ content slabs = r.encode ++ encodeAll rs := hbytes
      have hlen : (p ++ ds.bytes).length = p.length + ds.bytes.length := length_append
      rw [map_cons, map_cons, staysWithin] at hwithin
      split at hwithin
      · -- request の途中
        rename_i hmore
        obtain ⟨t, ht⟩ := prefix_of_prefix_length_le ⟨_, hbytes'⟩
          (prefix_append r.encode _) (by omega)
        have htne : t ≠ [] := by
          rintro rfl
          rw [← ht, append_nil] at hmore
          omega
        rw [← hlen] at hwithin
        refine .more htne ht (chunked_of_within hbytes (fun r' hr' => ?_) hwithin)
        cases hr'
        omega
      · -- ちょうど request の終わり
        rename_i hge
        obtain ⟨heq, hwithin⟩ := Bool.and_eq_true_iff.mp hwithin
        have heq := beq_iff_eq.mp heq
        obtain ⟨htext, hrest⟩ := append_inj hbytes' (by omega)
        have hend : p ++ ds.bytes = r.encode ++ [] := by rw [append_nil, htext]
        refine .last hend (hlt r rfl) ?_
        exact chunked_of_within hrest (fun r' _ => length_encode_pos r') hwithin

theorem staysWithin_nil : ∀ {ns : List Nat} {p : Nat}, ns.sum = 0 → staysWithin p [] ns = true
  | [], _, _ => rfl
  | n :: ns, p, h => by
    rw [sum_cons] at h
    rw [staysWithin, staysWithin_nil (by omega), Bool.and_true, beq_iff_eq]
    omega

theorem staysWithin_single : ∀ {ns : List Nat} {p t : Nat}, p < t → p + ns.sum = t →
    staysWithin p [t] ns = true
  | [], _, _, _, _ => rfl
  | n :: ns, p, t, hlt, h => by
    rw [sum_cons] at h
    rw [staysWithin]
    split
    · exact staysWithin_single (by assumption) (by omega)
    · rw [staysWithin_nil (by omega), Bool.and_true, beq_iff_eq]
      omega

theorem sum_length_bytes : ∀ slabs : List Slab,
    (slabs.map (·.bytes.length)).sum = (content slabs).length
  | [] => rfl
  | ds :: slabs => by
    rw [map_cons, sum_cons, sum_length_bytes slabs, content_cons, length_append]

/-! ## 1 byte ずつの切り方と、終わりを越える切り方 -/

def byteSlab (b : UInt8) : Slab := .ofBytes [b] (by
  show 1 < 2 ^ 32
  decide)

theorem content_byteSlabs : ∀ l : Bytes, content (l.map byteSlab) = l
  | [] => rfl
  | b :: l => by
    rw [map_cons, content_cons, content_byteSlabs l, byteSlab, Slab.bytes_ofBytes]
    rfl

theorem chunks_byteSlabs (l : Bytes) : chunks (l.map byteSlab) = l.map ([·]) := by
  induction l with
  | nil => rfl
  | cons b l ih =>
    have hbytes : (byteSlab b).bytes = [b] := Slab.bytes_ofBytes _ _
    rw [map_cons, chunks_cons_of_hasData (Slab.hasData_iff.mpr (hbytes ▸ cons_ne_nil _ _)),
      ih, hbytes, map_cons]

variable {r : HttpMessage}

theorem chunked_bytes {rs : List HttpMessage} {xs : List Bytes} :
    ∀ {u p t : Bytes}, t ≠ [] → p ++ u ++ t = r.encode → Chunked (p ++ u) (r :: rs) xs →
      Chunked p (r :: rs) (u.map ([·]) ++ xs)
  | [], p, _, _, _, h => by
    rwa [append_nil] at h
  | b :: u, p, t, ht, htext, h => by
    have hsplit : p ++ [b] ++ u = p ++ b :: u := by rw [append_assoc, singleton_append]
    rw [← hsplit] at htext h
    refine .more (t := u ++ t) ?_ ?_ (chunked_bytes ht htext h)
    · exact fun hnil => ht (append_eq_nil_iff.mp hnil).2
    · rw [← append_assoc, htext]

theorem chunked_cons {rs : List HttpMessage} {xs : List Bytes} {u : Bytes} {b : UInt8}
    (extra : Bytes) (htext : u ++ [b] = r.encode) (h : Chunked [] rs xs) :
    Chunked [] (r :: rs) (u.map ([·]) ++ (b :: extra) :: xs) := by
  have hend : [] ++ u ++ b :: extra = r.encode ++ extra := by
    rw [← htext, nil_append, append_assoc, singleton_append]
  refine chunked_bytes (t := [b]) (cons_ne_nil _ _) htext (.last hend ?_ h)
  · rw [← htext, nil_append, length_append]
    exact Nat.lt_succ_self _

theorem exists_last_byte (r : HttpMessage) : ∃ u b, u ++ [b] = r.encode := by
  rcases eq_nil_or_concat r.encode with hnil | ⟨u, b, heq⟩
  · exact absurd hnil (encode_ne_nil r)
  · exact ⟨u, b, by rw [heq, concat_eq_append]⟩

theorem chunked_bytewise : ∀ rs : List HttpMessage, Chunked [] rs ((encodeAll rs).map ([·]))
  | [] => .nil
  | r :: rs => by
    obtain ⟨u, b, htext⟩ := exists_last_byte r
    have hall : encodeAll (r :: rs) = u ++ b :: encodeAll rs := by
      rw [encodeAll, flatMap_cons, ← htext, append_assoc]
      rfl
    rw [hall, map_append]
    exact chunked_cons [] htext (chunked_bytewise rs)

/-! ## 主定理 -/

/-- command の初めの 1 byte を失った request -/
def HttpMessage.beheaded (r : HttpMessage) : HttpMessage :=
  { r with cmd := r.cmd.tail, cmd_ok := fun b hb => r.cmd_ok b (mem_of_mem_tail hb) }

theorem encode_beheaded (h : r.cmd ≠ []) : r.encode = r.cmd.head h :: r.beheaded.encode := by
  have hline : r.commandLine = r.cmd.head h :: r.beheaded.commandLine := by
    show r.cmd ++ _ = (r.cmd.head h :: r.cmd.tail) ++ _
    rw [cons_head_tail]
    rfl
  rw [HttpMessage.encode, hline]
  rfl

section

variable {d : HttpDispatcher} {reqs : List HttpText}

theorem keepsAlive_of_mem {r : HttpMessage} (h : r ∈ reqs.map (·.toHttpMessage)) :
    r.keepsAlive = true := by
  obtain ⟨q, -, rfl⟩ := mem_map.mp h
  exact q.keepAlive

theorem handed_of_within (hd : d.NeverAborts) {reads : List (List Slab)}
    (hbytes : content reads.flatten = httpStream reqs)
    (hwithin : staysWithin 0 (reqs.map (·.encode.length)) (reads.flatten.map (·.bytes.length)) =
      true) : httpHanded d reads = reqs.map (·.request) := by
  have hchunked : Chunked [] (reqs.map (·.toHttpMessage)) (chunks reads.flatten) := by
    refine chunked_of_within hbytes (fun r _ => length_encode_pos r) ?_
    rw [map_map]
    exact hwithin
  rw [handed_of_chunked hd (fun _ => keepsAlive_of_mem) hchunked, map_map]
  rfl

theorem staysWithin_of_le_one (hle : reqs.length ≤ 1) {slabs : List Slab}
    (hbytes : content slabs = httpStream reqs) :
    staysWithin 0 (reqs.map (·.encode.length)) (slabs.map (·.bytes.length)) = true := by
  have hsum := sum_length_bytes slabs
  rw [hbytes] at hsum
  cases reqs with
  | nil => exact staysWithin_nil hsum
  | cons r reqs =>
    obtain rfl : reqs = [] := eq_nil_of_length_eq_zero (by simpa using hle)
    refine staysWithin_single (length_encode_pos r.toHttpMessage) ?_
    rw [hsum, Nat.zero_add, httpStream, encodeAll, map_singleton, flatMap_singleton]

theorem handed_bytewise (hd : d.NeverAborts) (reqs : List HttpText) :
    httpHanded d [(httpStream reqs).map byteSlab] = reqs.map (·.request) := by
  have hchunked : Chunked [] (reqs.map (·.toHttpMessage))
      (chunks [(httpStream reqs).map byteSlab].flatten) := by
    rw [flatten_singleton, chunks_byteSlabs]
    exact chunked_bytewise _
  rw [handed_of_chunked hd (fun _ => keepsAlive_of_mem) hchunked, map_map]
  rfl

/-- request の最後の byte と次の byte を 1 つの slab で読むと、次の初めが失われる -/
theorem handed_overrun (hd : d.NeverAborts) (r1 r2 : HttpText) (reqs : List HttpText) :
    ∃ reads, content reads.flatten = httpStream (r1 :: r2 :: reqs) ∧
      httpHanded d reads = r1.request :: r2.beheaded.request :: reqs.map (·.request) := by
  obtain ⟨u, b, htext⟩ := exists_last_byte r1.toHttpMessage
  have hbehead := encode_beheaded r2.cmd_ne
  generalize r2.cmd.head r2.cmd_ne = a at hbehead
  let both : Slab := .ofBytes [b, a] (by
    show 2 < 2 ^ 32
    decide)
  let rest := encodeAll (r2.beheaded :: reqs.map (·.toHttpMessage))
  have hboth : both.bytes = [b, a] := Slab.bytes_ofBytes _ _
  refine ⟨[u.map byteSlab ++ both :: rest.map byteSlab], ?_, ?_⟩
  · rw [flatten_singleton, content_append, content_cons, content_byteSlabs, content_byteSlabs,
      httpStream, map_cons, map_cons, encodeAll, flatMap_cons,
      flatMap_cons, ← htext, hbehead, append_assoc]
    rfl
  have hchunked : Chunked [] (r1.toHttpMessage :: r2.beheaded :: reqs.map (·.toHttpMessage))
      (chunks [u.map byteSlab ++ both :: rest.map byteSlab].flatten) := by
    rw [flatten_singleton, chunks_append, chunks_byteSlabs,
      chunks_cons_of_hasData (Slab.hasData_iff.mpr (hboth ▸ cons_ne_nil _ _)),
      chunks_byteSlabs]
    exact chunked_cons [a] htext (chunked_bytewise _)
  have hkeep : ∀ r ∈ r1.toHttpMessage :: r2.beheaded :: reqs.map (·.toHttpMessage),
      r.keepsAlive = true :=
    forall_mem_cons.mpr ⟨r1.keepAlive, forall_mem_cons.mpr ⟨r2.keepAlive,
      fun _ => keepsAlive_of_mem⟩⟩
  rw [handed_of_chunked hd hkeep hchunked, map_cons, map_cons, map_map]
  rfl

end

def ping : HttpText where
  cmd := ascii "GET"
  uri := ascii "/"
  headers := [(ascii "Connection", ascii "Keep-Alive")]
  body := []
  cmd_ok := by decide +kernel
  uri_ok := by decide +kernel
  name_ok := by decide +kernel
  value_ok := by decide +kernel
  sized := by decide
  cmd_ne := by decide
  keepAlive := by decide

end Redcurrant.Server
