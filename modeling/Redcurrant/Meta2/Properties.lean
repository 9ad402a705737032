import Redcurrant.Meta2.Versions

/-!
# 作り直した alias の property

property は version ごとに 1 行。読むときは key ごとに最も新しい行を選ぶ（`filterProperties`）。
-/

namespace Redcurrant.Meta2

open Infra Sqliterepo Base List RowTable

namespace Base

/-! ## key ごとに最も新しい property -/

/-- 同じ key の行のうち version が最大であること -/
def Newest (rows : List Property) (p : Property) : Prop :=
  p ∈ rows ∧ ∀ q ∈ rows, q.key = p.key → q.aliasVersion ≤ p.aliasVersion

theorem filterProperties_append (rows : List Property) (p : Property) :
    filterProperties (rows ++ [p]) =
      if ∀ found, (filterProperties rows)[p.key]? = some found →
        found.aliasVersion < p.aliasVersion
      then (filterProperties rows).insert p.key p else filterProperties rows := by
  rw [filterProperties, foldl_append, ← filterProperties, foldl_cons]
  cases (filterProperties rows)[p.key]? with
  | none => simp
  | some found => simp

theorem filterProperties_spec (rows : List Property) (k : Bytes) :
    (∀ p, (filterProperties rows)[k]? = some p → p.key = k ∧ Newest rows p) ∧
      ((filterProperties rows)[k]? = none → ∀ q ∈ rows, q.key ≠ k) := by
  induction rows using List.reverseRecOn with
  | nil => simp [filterProperties]
  | append_singleton rows x ih =>
    rw [filterProperties_append]
    obtain ⟨ihsome, ihnone⟩ := ih
    by_cases hk : x.key = k
    · subst hk
      split
      · next hnew =>
        rw [Std.ExtTreeMap.getElem?_insert_self]
        refine ⟨?_, nofun⟩
        rintro p ⟨⟩
        refine ⟨rfl, by simp, fun q hq hqk => ?_⟩
        rcases mem_append.mp hq with hq | hq
        · cases hl : (filterProperties rows)[x.key]? with
          | none => exact absurd hqk (ihnone hl q hq)
          | some found =>
            obtain ⟨hfk, -, hmax⟩ := ihsome found hl
            exact (hmax q hq (hqk.trans hfk.symm)).trans (le_of_lt (hnew found hl))
        · rw [mem_singleton.mp hq]
      · next hold =>
        push Not at hold
        obtain ⟨found, hl, hle⟩ := hold
        rw [hl]
        refine ⟨?_, nofun⟩
        rintro p ⟨⟩
        obtain ⟨hfk, hmem, hmax⟩ := ihsome found hl
        refine ⟨hfk, mem_append_left _ hmem, fun q hq hqk => ?_⟩
        rcases mem_append.mp hq with hq | hq
        · exact hmax q hq hqk
        · rw [mem_singleton.mp hq]
          exact hle
    · have hsame : (if ∀ found, (filterProperties rows)[x.key]? = some found →
          found.aliasVersion < x.aliasVersion
          then (filterProperties rows).insert x.key x else filterProperties rows)[k]? =
            (filterProperties rows)[k]? := by
        split
        · rw [Std.ExtTreeMap.getElem?_insert, if_neg]
          simpa using hk
        · rfl
      rw [hsame]
      refine ⟨fun p hp => ?_, fun hl q hq => ?_⟩
      · obtain ⟨hpk, hmem, hmax⟩ := ihsome p hp
        refine ⟨hpk, mem_append_left _ hmem, fun q hq hqk => ?_⟩
        rcases mem_append.mp hq with hq | hq
        · exact hmax q hq hqk
        · rw [mem_singleton.mp hq, hpk] at hqk
          exact absurd hqk hk
      · rcases mem_append.mp hq with hq | hq
        · exact ihnone hl q hq
        · rw [mem_singleton.mp hq]
          exact hk

theorem mem_filterProperties {rows : List Property} {p : Property}
    (hu : ∀ q ∈ rows, ∀ q' ∈ rows, q.key = q'.key → q.aliasVersion = q'.aliasVersion → q = q') :
    p ∈ (filterProperties rows).toList.map (·.2) ↔ Newest rows p := by
  simp only [mem_map, Prod.exists, exists_eq_right, Std.ExtTreeMap.mem_toList_iff_getElem?_eq_some]
  constructor
  · rintro ⟨k, hk⟩
    exact ((filterProperties_spec rows k).1 p hk).2
  · intro hp
    refine ⟨p.key, ?_⟩
    cases hl : (filterProperties rows)[p.key]? with
    | none => exact absurd rfl ((filterProperties_spec rows p.key).2 hl p hp.1)
    | some found =>
      obtain ⟨hfk, hmem, hmax⟩ := (filterProperties_spec rows p.key).1 found hl
      have hv : found.aliasVersion = p.aliasVersion :=
        le_antisymm (hp.2 found hmem hfk) (hmax p hp.1 hfk.symm)
      rw [hu found hmem p hp.1 hfk hv]

/-! ## path の GET -/

def propertyRows (b : Base) (path : Bytes) : List Property :=
  b.properties.rows.filter (·.alias = path)

section

variable {b : Base} {path : Bytes} {p q : Property} {r : Alias}

@[simp] theorem mem_propertyRows :
    p ∈ b.propertyRows path ↔ p ∈ b.properties.rows ∧ p.alias = path := by
  simp [propertyRows]

theorem propertyRows_unique (hp : p ∈ b.propertyRows path) (hq : q ∈ b.propertyRows path)
    (hk : p.key = q.key) (hv : p.aliasVersion = q.aliasVersion) : p = q := by
  obtain ⟨hpm, hpn⟩ := mem_propertyRows.mp hp
  obtain ⟨hqm, hqn⟩ := mem_propertyRows.mp hq
  exact b.properties.eq_of_clash hpm hqm (clash_property.mpr ⟨hpn.trans hqn.symm, hv, hk⟩)

/-- 生きている path の GET は key ごとに最も新しく、削除の印の無い property を返す -/
theorem getAlias_path (hr : b.latestRow path = some r) (hl : r.deleted = false) :
    ∃ out, b.getAlias (pathUrl path) { nodeleted := true } = .ok out ∧
      ∀ p, .properties p ∈ out ↔ Newest (b.propertyRows path) p ∧ p.deleted = false := by
  have hrows := findAliases_path hr hl
  have hprops : b.getProperties (pathUrl path) { nodeleted := true } =
      .ok (((filterProperties (b.propertyRows path)).toList.map (·.2)).filter (!·.deleted)) := by
    simp [getProperties, getProperty, pathUrl, Url.getPath, bind, Except.bind, hr, hl, propertyRows]
  have hget : b.getAlias (pathUrl path) { nodeleted := true } = .ok (b.manageAlias r ++
      (((filterProperties (b.propertyRows path)).toList.map (·.2)).filter (!·.deleted)).map
        .properties) := by
    simp [getAlias, hrows, bind, Except.bind, hprops, drain, hl]
  refine ⟨_, hget, fun p => ?_⟩
  · rw [← mem_filterProperties fun q hq q' hq' => propertyRows_unique hq hq']
    simp [manageAlias, manageHeader, manageContent]

end

/-! ## 削除と put -/

section

variable {env : Env} {b b₁ b₂ : Base} {path : Bytes} {latest : Alias} {m now : Int}

def deletionMark (b : Base) (x : Alias) (now : Int) : Alias :=
  { x with
    deleted := true
    version := 1 + x.version
    containerVersion := 1 + b.version
    ctime := now }

section

variable (hl : b.latestRow path = some latest)
include hl

theorem latestRow_save {a : Alias} (hn : a.alias = path) (hv : latest.version < a.version) :
    (b.save (.aliases a)).latestRow path = some a := by
  refine latestRow_eq_some ?_ hn fun x hx hxn => ?_
  · exact (mem_replaceInto _).mpr (.inr rfl)
  rcases (mem_replaceInto _).mp hx with ⟨hx, -⟩ | rfl
  · exact (latestRow_le hl hx hxn).trans hv.le
  · exact le_rfl

theorem latestRow_save_mark (now : Int) :
    (b.save (.aliases (b.deletionMark latest now))).latestRow path =
      some (b.deletionMark latest now) :=
  latestRow_save hl (latestRow_mem hl).2 (show latest.version < 1 + latest.version by omega)

theorem properties_markDeleted (hlive : latest.deleted = false) (now : Int) :
    b.markDeleted (pathUrl path) latest now =
      .ok (b.save (.aliases (b.deletionMark latest now))) := by
  have hnone : (b.save (.aliases (b.deletionMark latest now))).getProperties (pathUrl path) {} =
      .ok [] := by
    simp only [getProperties, getProperty, pathUrl, Url.getPath, bind, Except.bind]
    rw [latestRow_save_mark hl now]
    rfl
  have hmark : ({ latest with
      deleted := !(latest.deleted && b.isInASnapshot latest)
      version := 1 + latest.version
      containerVersion := 1 + b.version
      ctime := now } : Alias) = b.deletionMark latest now := by
    simp [deletionMark, hlive]
  simp only [markDeleted, hmark, hnone, bind, Except.bind]
  rfl

end

variable (hm : VersionsEnabled m) (hl : b.latestRow path = some latest)
include hm hl

theorem step_delete_live (hlive : latest.deleted = false) {dc : Bool}
    (h : step env b ⟨m, .delete (pathUrl path) dc now⟩ = some b₁) :
    b₁ = (b.save (.aliases (b.deletionMark latest now))).incrementVersion := by
  obtain ⟨⟨b', out⟩, hok, rfl⟩ := okBase_eq_some h
  obtain ⟨rows, a, hf, hlast, hcase⟩ := deleteAlias_eq_ok hok
  have hrows : rows = [latest] := by
    obtain ⟨p, c, hp, hc, hrows, -⟩ := findAliases_eq_ok rfl hf
    cases hp
    cases hc
    rw [hrows, selectRows, hl, Option.toList_some]
  have ha : a = latest := by
    have := lastManaged_mem hlast
    rw [hrows] at this
    exact mem_singleton.mp this
  subst ha
  rcases hcase with ⟨hd, -⟩ | ⟨-, -, hmark⟩
  · simp [deletesReally, hm.not_disabled, hm.not_suspended, pathUrl, hlive] at hd
  rw [properties_markDeleted hl hlive] at hmark
  cases hmark
  rfl

/-- 削除の後の put が書く version。印が snapshot に属さなければ、印に上書きする。 -/
def recreateVersion (b : Base) (latest : Alias) : Int :=
  if b.isInASnapshot { latest with containerVersion := 1 + b.version } then latest.version + 2
  else latest.version + 1

theorem putVersion_after_delete {size version size' : Int}
    (hv : (b.save (.aliases (b.deletionMark latest now))).incrementVersion.putVersion m path size =
      .ok (version, size')) :
    version + 1 = b.recreateVersion latest := by
  have hlatest : (b.save (.aliases (b.deletionMark latest now))).incrementVersion.latestRow path =
    some (b.deletionMark latest now) := latestRow_save_mark hl now
  have hsnap : (b.save (.aliases (b.deletionMark latest now))).incrementVersion.isInASnapshot
      (b.deletionMark latest now) =
        b.isInASnapshot { latest with containerVersion := 1 + b.version } := rfl
  have hmark : (b.deletionMark latest now).deleted = true := rfl
  have hmv : (b.deletionMark latest now).version = 1 + latest.version := rfl
  simp only [putVersion, hlatest, if_neg hm.not_disabled, if_neg hm.not_suspended, hsnap, hmark,
    Bool.true_and] at hv
  rw [recreateVersion]
  cases hin : b.isInASnapshot { latest with containerVersion := 1 + b.version } with
  | true =>
    rw [hin] at hv
    cases hv
    simp only [if_true]
    omega
  | false =>
    rw [hin] at hv
    cases hv
    simp only [Bool.false_eq_true, if_false]
    omega

theorem step_put_after_delete {url : Url} {beans : List Bean} {uid : Bytes} {now' : Int}
    (hp : url.path = some path)
    (hb1 : b₁ = (b.save (.aliases (b.deletionMark latest now))).incrementVersion)
    (h : step env b₁ ⟨m, .put url beans uid now'⟩ = some b₂) :
    (∃ args : PutArgs, args.version + 1 = b.recreateVersion latest ∧
      b₂.aliases = (b.aliases.replaceInto (b.deletionMark latest now)).replaceAll
        ((aliasesIn beans).map (b₁.putAliasRow env args now'))) ∧
      b₂.properties = b.properties.replaceAll ((propertiesIn beans).map fun p =>
        { p with aliasVersion := b.recreateVersion latest }) := by
  subst hb1
  obtain ⟨⟨b', out, v⟩, hok, rfl⟩ := okBase_eq_some h
  obtain ⟨p, version, size, hp', hv, rfl⟩ := putAlias_eq_ok hok
  have hpath : p = path := Option.some.inj (hp'.symm.trans hp)
  subst hpath
  have hversion : version + 1 = b.recreateVersion latest := putVersion_after_delete hm hl hv
  constructor
  · refine ⟨⟨uid, version, false⟩, hversion, ?_⟩
    simp only [realPutAlias, setSize, incrementVersion, aliases_saveAll]
    rw [aliasesIn_putBeans rfl, aliasesIn_patch]
    rfl
  · simp only [realPutAlias, setSize, incrementVersion, properties_saveAll]
    rw [propertiesIn_putBeans, propertiesIn_patch, hversion]
    rfl

end

/-! ## 作り直した path の property -/

/-- put が書く property の行 -/
def recreatedProperties (b : Base) (latest : Alias) (beans : List Bean) : List Property :=
  (propertiesIn beans).map fun p => { p with aliasVersion := b.recreateVersion latest }

/-- 削除の後に put した property だけが見える条件 -/
structure CleanRecreate (b : Base) (path : Bytes) (latest : Alias) (beans : List Bean) :
    Prop where
  /-- put は path の alias を書く -/
  named : ∃ a ∈ aliasesIn beans, a.alias = path
  /-- put する property は path のもので、削除の印が無い -/
  shown : ∀ p ∈ propertiesIn beans, p.alias = path ∧ p.deleted = false
  /-- put する property の key は重ならない -/
  keys : ∀ p ∈ propertiesIn beans, ∀ q ∈ propertiesIn beans, p.key = q.key → p.value = q.value
  /-- 同じ key の前の property は新しい alias より後の version に無い -/
  older : ∀ p ∈ propertiesIn beans, ∀ q ∈ b.propertyRows path, q.key = p.key →
    q.aliasVersion ≤ b.recreateVersion latest
  /-- ほかの key では前の最も新しい property に削除の印がある -/
  hidden : ∀ q, Newest (b.propertyRows path) q → (∀ p ∈ propertiesIn beans, p.key ≠ q.key) →
    q.deleted = true

section

variable {b b₂ : Base} {path : Bytes} {latest : Alias} {beans : List Bean} {p q : Property}

theorem mem_recreatedProperties : p ∈ b.recreatedProperties latest beans ↔
    ∃ q ∈ propertiesIn beans, { q with aliasVersion := b.recreateVersion latest } = p :=
  mem_map

theorem survives_of_new_key (hb2 : b₂.properties =
      b.properties.replaceAll (b.recreatedProperties latest beans))
    (hq : q ∈ b.propertyRows path) (hk : ∀ p ∈ propertiesIn beans, p.key ≠ q.key) :
    q ∈ b₂.propertyRows path := by
  obtain ⟨hqm, hqn⟩ := mem_propertyRows.mp hq
  refine mem_propertyRows.mpr ⟨?_, hqn⟩
  rw [hb2]
  refine mem_replaceAll _ (.inr hqm) fun x hx hc => ?_
  obtain ⟨p, hp, rfl⟩ := mem_recreatedProperties.mp hx
  exact absurd (clash_property.mp hc).2.2 (hk p hp)

theorem CleanRecreate.newest_iff (h : b.CleanRecreate path latest beans)
    (hb2 : b₂.properties = b.properties.replaceAll (b.recreatedProperties latest beans)) :
    Newest (b₂.propertyRows path) p ∧ p.deleted = false ↔
      p ∈ b.recreatedProperties latest beans := by
  have hfrom : ∀ q, q ∈ b₂.propertyRows path →
      q ∈ b.recreatedProperties latest beans ∨ q ∈ b.propertyRows path := by
    intro q hq
    obtain ⟨hqm, hqn⟩ := mem_propertyRows.mp hq
    rw [hb2] at hqm
    exact (mem_of_replaceAll _ hqm).imp_right fun ho => mem_propertyRows.mpr ⟨ho, hqn⟩
  have hwritten : ∀ q ∈ propertiesIn beans,
      { q with aliasVersion := b.recreateVersion latest } ∈ b₂.propertyRows path := by
    intro q hq
    refine mem_propertyRows.mpr ⟨?_, (h.shown q hq).1⟩
    rw [hb2]
    refine mem_replaceAll _ (.inl (mem_recreatedProperties.mpr ⟨q, hq, rfl⟩)) ?_
    intro x hx hc
    obtain ⟨q', hq', rfl⟩ := mem_recreatedProperties.mp hx
    obtain ⟨hn, -, hk⟩ := clash_property.mp hc
    have hv := h.keys q' hq' q hq hk
    have hd := (h.shown q' hq').2.trans (h.shown q hq).2.symm
    simp_all
  constructor
  · rintro ⟨⟨hp, hmax⟩, hlive⟩
    rcases hfrom p hp with hw | ho
    · exact hw
    by_cases hk : ∀ q ∈ propertiesIn beans, q.key ≠ p.key
    · -- 書かれない key では前の property が残る
      have hnew : Newest (b.propertyRows path) p :=
        ⟨ho, fun q hq hqk => hmax q
          (survives_of_new_key hb2 hq fun x hx hxk => hk x hx (hxk.trans hqk)) hqk⟩
      rw [h.hidden p hnew hk] at hlive
      cases hlive
    push Not at hk
    obtain ⟨q, hq, hqk⟩ := hk
    have hle := hmax _ (hwritten q hq) hqk
    have hge := h.older q hq p ho hqk.symm
    have he := propertyRows_unique hp (hwritten q hq) hqk.symm (le_antisymm hge hle)
    exact mem_recreatedProperties.mpr ⟨q, hq, he.symm⟩
  · intro hp
    obtain ⟨q, hq, rfl⟩ := mem_recreatedProperties.mp hp
    refine ⟨⟨hwritten q hq, fun x hx hxk => ?_⟩, (h.shown q hq).2⟩
    rcases hfrom x hx with hw | ho
    · obtain ⟨q', -, rfl⟩ := mem_recreatedProperties.mp hw
      exact le_rfl
    · exact h.older q hq x ho hxk

theorem cleanRecreate_of_newest_iff (hn : ∃ a ∈ aliasesIn beans, a.alias = path)
    (hb2 : b₂.properties = b.properties.replaceAll (b.recreatedProperties latest beans))
    (h : ∀ p, Newest (b₂.propertyRows path) p ∧ p.deleted = false ↔
      p ∈ b.recreatedProperties latest beans) : b.CleanRecreate path latest beans := by
  have hshown : ∀ p ∈ propertiesIn beans,
      Newest (b₂.propertyRows path) { p with aliasVersion := b.recreateVersion latest } ∧
        p.deleted = false :=
    fun p hp => (h _).mpr (mem_recreatedProperties.mpr ⟨p, hp, rfl⟩)
  refine ⟨hn, fun p hp => ?_, fun p hp q hq hk => ?_, fun p hp q hq hk => ?_, fun q hq hk => ?_⟩
  · exact ⟨(mem_propertyRows.mp (hshown p hp).1.1).2, (hshown p hp).2⟩
  · have he := propertyRows_unique (hshown p hp).1.1 (hshown q hq).1.1 hk rfl
    have hv : _ = _ := congrArg Property.value he
    exact hv
  · obtain ⟨hqm, hqn⟩ := mem_propertyRows.mp hq
    by_cases hc : ∃ x ∈ b.recreatedProperties latest beans, Clash Property.pk x q
    · obtain ⟨x, hx, hc⟩ := hc
      obtain ⟨y, -, rfl⟩ := mem_recreatedProperties.mp hx
      exact (clash_property.mp hc).2.1.symm.le
    refine (hshown p hp).1.2 q (mem_propertyRows.mpr ⟨?_, hqn⟩) hk
    rw [hb2]
    exact mem_replaceAll _ (.inr hqm) fun x hx hcl => absurd ⟨x, hx, hcl⟩ hc
  · by_contra hlive
    have hsurv : Newest (b₂.propertyRows path) q := by
      refine ⟨survives_of_new_key hb2 hq.1 hk, fun x hx hxk => ?_⟩
      obtain ⟨hxm, hxn⟩ := mem_propertyRows.mp hx
      rw [hb2] at hxm
      rcases mem_of_replaceAll _ hxm with hw | ho
      · obtain ⟨p, hp, rfl⟩ := mem_recreatedProperties.mp hw
        exact absurd hxk (hk p hp)
      · exact hq.2 x (mem_propertyRows.mpr ⟨ho, hxn⟩) hxk
    obtain ⟨p, hp, rfl⟩ := mem_recreatedProperties.mp ((h q).mp ⟨hsurv, by simpa using hlive⟩)
    exact hk p hp rfl

end

section

variable {env : Env} {b b₁ b₂ : Base} {path : Bytes} {latest : Alias} {beans : List Bean}
variable {args : PutArgs} {now now' : Int}

theorem recreateVersion_gt (b : Base) (latest : Alias) :
    latest.version + 1 ≤ b.recreateVersion latest := by
  simp only [recreateVersion]
  split <;> omega

/-- 削除の後に書けば path は生き、書かなければ印が最新 -/
theorem live_after_put_iff (hl : b.latestRow path = some latest)
    (hv : args.version + 1 = b.recreateVersion latest)
    (hb2 : b₂.aliases = (b.aliases.replaceInto (b.deletionMark latest now)).replaceAll
      ((aliasesIn beans).map (b₁.putAliasRow env args now'))) :
    (∃ r, b₂.latestRow path = some r ∧ r.deleted = false) ↔
      ∃ a ∈ aliasesIn beans, a.alias = path := by
  have hmark : (b.deletionMark latest now).alias = path ∧
      (b.deletionMark latest now).version = 1 + latest.version := ⟨(latestRow_mem hl).2, rfl⟩
  have hgt := b.recreateVersion_gt latest
  have hfrom : ∀ r ∈ b₂.aliases.rows, r.alias = path →
      (∃ a ∈ aliasesIn beans, r = b₁.putAliasRow env args now' a) ∨
        r = b.deletionMark latest now ∨ r.version ≤ latest.version := by
    intro r hr hn
    rw [hb2] at hr
    rcases mem_of_replaceAll _ hr with hw | ho
    · obtain ⟨a, ha, rfl⟩ := mem_map.mp hw
      exact .inl ⟨a, ha, rfl⟩
    rcases (mem_replaceInto _).mp ho with ⟨ho, -⟩ | rfl
    · exact .inr (.inr (latestRow_le hl ho hn))
    · exact .inr (.inl rfl)
  constructor
  · rintro ⟨r, hr, hlive⟩
    by_contra hnone
    push Not at hnone
    obtain ⟨hrm, hrn⟩ := latestRow_mem hr
    have hmem : b.deletionMark latest now ∈ b₂.aliases.rows := by
      rw [hb2]
      refine mem_replaceAll _ (.inr ((mem_replaceInto _).mpr (.inr rfl))) ?_
      intro x hx hc
      obtain ⟨a, ha, rfl⟩ := mem_map.mp hx
      exact absurd ((clash_alias.mp hc).1.trans hmark.1) (hnone a ha)
    have hle := latestRow_le hr hmem hmark.1
    rcases hfrom r hrm hrn with ⟨a, ha, rfl⟩ | rfl | hold
    · exact hnone a ha hrn
    · cases hlive
    · omega
  · rintro ⟨a, ha, hn⟩
    obtain ⟨y, hy, hmem, hc⟩ := exists_mem_replaceAll
      (b.aliases.replaceInto (b.deletionMark latest now))
      (mem_map_of_mem (f := b₁.putAliasRow env args now') ha) rfl
    obtain ⟨a', -, rfl⟩ := mem_map.mp hy
    have hy' : (b₁.putAliasRow env args now' a').alias = path ∧
        (b₁.putAliasRow env args now' a').version = b.recreateVersion latest :=
      ⟨(clash_alias.mp hc).1.symm.trans hn, hv⟩
    refine ⟨_, latestRow_eq_some (hb2 ▸ hmem) hy'.1 fun r hr hrn => ?_, rfl⟩
    rcases hfrom r hr hrn with ⟨q, -, rfl⟩ | rfl | hold
    · exact le_rfl
    · omega
    · omega

/-- **作り直した path の property。** 削除と put の後の GET が put した property だけを返すのは `CleanRecreate` のときに
限る。 -/
theorem recreated_properties_iff (env : Env) (b b₁ b₂ : Base) (m m' now now' : Int) (dc : Bool)
    (path uid : Bytes) (url : Url) (beans : List Bean) (latest : Alias) (hm : VersionsEnabled m)
    (hm' : VersionsEnabled m') (hl : b.latestRow path = some latest)
    (hlive : latest.deleted = false) (hp : url.path = some path)
    (hdel : step env b ⟨m, .delete (pathUrl path) dc now⟩ = some b₁)
    (hput : step env b₁ ⟨m', .put url beans uid now'⟩ = some b₂) :
    (∃ out, b₂.getAlias (pathUrl path) { nodeleted := true } = .ok out ∧
      ∀ p, .properties p ∈ out ↔ p ∈ b.recreatedProperties latest beans) ↔
      b.CleanRecreate path latest beans := by
  have hb₁ := step_delete_live hm hl hlive hdel
  obtain ⟨⟨args, hv, haliases⟩, hprops⟩ := step_put_after_delete hm' hl hp hb₁ hput
  have hiff := live_after_put_iff hl hv haliases
  constructor
  · rintro ⟨out, hout, hall⟩
    obtain ⟨r, hr, hrl⟩ := live_of_getAlias hout
    obtain ⟨out', hout', hnew⟩ := getAlias_path hr hrl
    rw [hout, Except.ok.injEq] at hout'
    subst hout'
    exact cleanRecreate_of_newest_iff (hiff.mp ⟨r, hr, hrl⟩) hprops
      fun p => (hnew p).symm.trans (hall p)
  · intro h
    obtain ⟨r, hr, hrl⟩ := hiff.mpr h.named
    obtain ⟨out, hout, hnew⟩ := getAlias_path hr hrl
    exact ⟨out, hout, fun p => (hnew p).trans (h.newest_iff hprops)⟩

/-! ### 前の property がまた見える場合 -/

def colorP : Bean := .properties ⟨ascii "p", 0, ascii "color", ascii "red", false⟩

def putColored : Request :=
  ⟨10, .put (pathUrl (ascii "p")) (chunkBeans "l" 2 ++ [colorP]) (ascii "v") 3⟩

/-- 前の property を持つ `p` を削除し、同じ key の property を付けて put すると、新しいものだけが見える -/
theorem recreated_properties_colored : ∃ b b₁ b₂ latest out,
    exec (step plainEnv) Base.init
      [putP 10 "k" 1 "u", ⟨10, .setProperties (pathUrl (ascii "p")) [colorP]⟩] = some b ∧
    b.properties.rows ≠ [] ∧
    step plainEnv b ⟨10, .delete (pathUrl (ascii "p")) true 2⟩ = some b₁ ∧
    step plainEnv b₁ putColored = some b₂ ∧
    b₂.getAlias (pathUrl (ascii "p")) { nodeleted := true } = .ok out ∧
    ∀ p, .properties p ∈ out ↔ p ∈ b.recreatedProperties latest (chunkBeans "l" 2 ++ [colorP]) := by
  obtain ⟨b, b₁, b₂, latest, h, hd, hp, hl, hlive, hrows, holder⟩ : ∃ b b₁ b₂ latest,
      exec (step plainEnv) Base.init
        [putP 10 "k" 1 "u", ⟨10, .setProperties (pathUrl (ascii "p")) [colorP]⟩] = some b ∧
      step plainEnv b ⟨10, .delete (pathUrl (ascii "p")) true 2⟩ = some b₁ ∧
      step plainEnv b₁ putColored = some b₂ ∧
      b.latestRow (ascii "p") = some latest ∧ latest.deleted = false ∧
      b.properties.rows = [⟨ascii "p", 2, ascii "color", ascii "red", false⟩] ∧
      2 ≤ b.recreateVersion latest :=
    ⟨_, _, _, _, rfl, rfl, rfl, rfl, rfl, rfl, by decide +kernel⟩
  have hone : ∀ q ∈ b.propertyRows (ascii "p"),
      q = ⟨ascii "p", 2, ascii "color", ascii "red", false⟩ := by
    intro q hq
    have hmem := (mem_propertyRows.mp hq).1
    rw [hrows] at hmem
    exact mem_singleton.mp hmem
  have hclean : b.CleanRecreate (ascii "p") latest (chunkBeans "l" 2 ++ [colorP]) := by
    refine ⟨by decide +kernel, by decide +kernel, by decide +kernel, fun _ _ q hq _ => ?_,
      fun q hq hkey => ?_⟩
    · rw [hone q hq]
      exact holder
    · -- 前の property の key は put する property の key である
      refine absurd (congrArg Property.key (hone q hq.1)).symm
        (hkey ⟨ascii "p", 0, ascii "color", ascii "red", false⟩ ?_)
      exact mem_filterMap.mpr ⟨colorP, by simp, rfl⟩
  obtain ⟨out, hout, hall⟩ := (recreated_properties_iff plainEnv b b₁ b₂ 10 10 2 3 true
    (ascii "p") (ascii "v") (pathUrl (ascii "p")) _ latest (.inl (by decide)) (.inl (by decide))
    hl hlive rfl hd hp).mpr hclean
  exact ⟨b, b₁, b₂, latest, out, h, by rw [hrows]; exact cons_ne_nil _ _, hd, hp, hout, hall⟩

/-- property を付け、削除し、property なしで put すると、前の property がまた見える -/
theorem deleted_property_returns : ∃ b b₁ b₂ out, exec (step plainEnv) Base.init
      [putP 10 "k" 1 "u", ⟨10, .setProperties (pathUrl (ascii "p")) [colorP]⟩] = some b ∧
    step plainEnv b ⟨10, .delete (pathUrl (ascii "p")) true 2⟩ = some b₁ ∧
    step plainEnv b₁ (putP 10 "l" 2 "v") = some b₂ ∧
    b₂.getAlias (pathUrl (ascii "p")) { nodeleted := true } = .ok out ∧
    propertiesIn (chunkBeans "l" 2) = [] ∧
    .properties ⟨ascii "p", 2, ascii "color", ascii "red", false⟩ ∈ out := by
  refine ⟨_, _, _, _, rfl, rfl, rfl, rfl, rfl, by decide +kernel⟩

end

/-! ## 前の version の property -/

section

variable {b : Base} {path : Bytes} {v version : Int}

/-- `key` の行をすべて消す bean -/
def erases (key : Bytes) : Bean → Bool
  | .properties p => (p.value.isEmpty || p.deleted) && p.key = key
  | _ => false

/-- path の property の行のうち、version が `v` までのもの -/
def propertiesUpTo (b : Base) (path : Bytes) (v : Int) : List Property :=
  (b.propertyRows path).filter (·.aliasVersion ≤ v)

theorem propertiesUpTo_setProperty (hv : v < version) (x : Bean) :
    (setProperty path version b x).propertiesUpTo path v =
      (b.propertiesUpTo path v).filter fun q => !erases q.key x := by
  cases x with
  | properties p =>
    simp only [setProperty, erases]
    split
    · next he =>
      -- 消す bean は version を見ずに key の行を消す
      simp only [propertiesUpTo, propertyRows, delete, filter_filter, he, Bool.true_and]
      refine filter_congr fun q _ => ?_
      by_cases hq : q.alias = path <;> simp [hq, eq_comm, Bool.and_comm]
    · next he =>
      -- 書く行は `v` より新しい
      have hrows : (b.save (.properties { p with «alias» := path, aliasVersion := version })
          ).propertiesUpTo path v = b.propertiesUpTo path v := by
        simp only [propertiesUpTo, propertyRows, save, replaceInto, erase,
          delete, filter_append, filter_filter]
        rw [filter_cons_of_neg (by simpa using hv), filter_nil, append_nil]
        refine filter_congr fun q _ => ?_
        by_cases hq : q.aliasVersion ≤ v
        · have hne : version ≠ q.aliasVersion := by omega
          simp [hq, hne]
        · simp [hq]
      simpa [he] using hrows
  | _ => simp [setProperty, erases]

theorem propertiesUpTo_foldl (hv : v < version) (beans : List Bean) :
    (beans.foldl (setProperty path version) b).propertiesUpTo path v =
      (b.propertiesUpTo path v).filter fun q => beans.all (!erases q.key ·) := by
  induction beans generalizing b with
  | nil => simp
  | cons x beans ih =>
    rw [foldl_cons, ih, propertiesUpTo_setProperty hv]
    simp [Bool.and_comm]

theorem getProperty_eq_ok {url : Url} {latest : Alias} {vers : Bytes}
    (hl : b.latestRow path = some latest) (hlive : latest.deleted = false)
    (hpath : url.path = some path) (hvers : url.version = some vers) (hpos : 0 < strtoll vers)
    (propName : Bytes) (flags : GetFlags) :
    b.getProperty url propName flags =
      .ok (let rows := (b.propertiesUpTo path (strtoll vers)).filter
            fun p => propName.isEmpty || p.key = propName
          if flags.allversion then rows
          else ((filterProperties rows).toList.map (·.2)).filter
            fun p => !(flags.nodeleted && p.deleted)) := by
  have hrows : (b.properties.rows.filter fun p =>
      p.alias = path && (decide (strtoll vers ≤ 0) || decide (p.aliasVersion ≤ strtoll vers)) &&
        (propName.isEmpty || p.key = propName)) =
      (b.propertiesUpTo path (strtoll vers)).filter fun p => propName.isEmpty || p.key = propName := by
    simp only [propertiesUpTo, propertyRows, filter_filter, decide_eq_false (by omega :
      ¬ strtoll vers ≤ 0), Bool.false_or]
    ac_rfl
  obtain ⟨p, w, s⟩ := url
  cases hpath
  cases hvers
  simp only [getProperty, Url.getPath, bind, Except.bind, hl, hlive, Option.map_some,
    Option.getD_some, hrows]
  cases flags.allversion <;> rfl

def coloredRun : List Request :=
  [putP 10 "k" 1 "u", ⟨10, .setProperties (pathUrl (ascii "p")) [colorP]⟩]

def secondP : Url := ⟨some (ascii "p"), some (ascii "2"), none⟩

def sizeP : Bean := .properties ⟨ascii "p", 0, ascii "size", ascii "1", false⟩

end

end Base

end Redcurrant.Meta2
