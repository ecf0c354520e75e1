import YikvServer.Config.ImportFlags

/-!
# Arena sizes in bytes

`LoadServerConfig` checks the sizes in gigabytes; the two `main`s multiply them afterwards,
in 64 bits and with no check of their own. What the checks promise holds of the bytes
exactly when the larger size is below `2 ^ 34` gigabytes.
-/
namespace YikvServer.Config

open YikvServer.Theory YikvServer.Stream

variable {R : ConfigReader} {host : ImportHost} {path : String} {cfg : ServerConfig} {f : Flags}
  {argv : List String}

section Spec

/-- The sizes in bytes are those of the config, in the order that its checks leave them in. -/
structure ExactSizes (cfg : ServerConfig) (alloc : AllocDefaults) : Prop where
  segment : alloc.segmentSize.toNat = cfg.arenaSegGb.toNat * 2 ^ 30
  max : alloc.maxArenaSize.toNat = cfg.arenaMaxGb.toNat * 2 ^ 30
  pos : 0 < alloc.segmentSize
  le : alloc.segmentSize ≤ alloc.maxArenaSize

end Spec

/-! ## The product -/

theorem toNat_arenaBytes (gb : UInt64) : (arenaBytes gb).toNat = gb.toNat * 2 ^ 30 % 2 ^ 64 := by
  unfold arenaBytes
  simp only [UInt64.toNat_mul, UInt64.reduceToNat]
  omega

/-- No bit is lost below `2 ^ 34`. -/
theorem arenaBytes_exact_iff (gb : UInt64) :
    (arenaBytes gb).toNat = gb.toNat * 2 ^ 30 ↔ gb.toNat < 2 ^ 34 := by
  rw [toNat_arenaBytes, Nat.mod_eq_iff_lt (by decide)]
  omega

/-- Both `main`s make the sizes in this way. -/
theorem exactSizes_iff {alloc : AllocDefaults}
    (hseg : alloc.segmentSize = arenaBytes cfg.arenaSegGb)
    (hmax : alloc.maxArenaSize = arenaBytes cfg.arenaMaxGb) :
    ExactSizes cfg alloc ↔ cfg.arenaMaxGb.toNat < 2 ^ 34 := by
  have hle := UInt64.le_iff_toNat_le.mp cfg.arenaSegGb_le
  have hpos := UInt64.lt_iff_toNat_lt.mp cfg.arenaSegGb_pos
  constructor
  · intro h
    have hexact := h.max
    rw [hmax] at hexact
    exact (arenaBytes_exact_iff _).mp hexact
  · intro hlt
    have hsegExact := (arenaBytes_exact_iff cfg.arenaSegGb).mpr (hle.trans_lt hlt)
    have hmaxExact := (arenaBytes_exact_iff cfg.arenaMaxGb).mpr hlt
    rw [← hseg] at hsegExact
    rw [← hmax] at hmaxExact
    refine ⟨hsegExact, hmaxExact, UInt64.lt_iff_toNat_lt.mpr ?_, UInt64.le_iff_toNat_le.mpr ?_⟩
    · rw [hsegExact]
      exact Nat.mul_pos hpos (by decide)
    · rw [hsegExact, hmaxExact]
      exact Nat.mul_le_mul_right _ hle

/-! ## The two programs -/

theorem serverInit_ok (hload : loadServerConfig R host.files path = .ok cfg)
    (args : List String) :
    serverInit R host.files (path :: args) = .ok (serverDbOptions cfg) := by
  simp only [serverInit, hload]

theorem importInit_ok (hload : loadServerConfig R host.files path = .ok cfg)
    (hargs : parseFlags host argv = .ok f) (hpath : f.configPath = path) :
    ∃ f', importInit R host argv = .ok (f', importDbOptions f') ∧
      f'.arenaSegGb = cfg.arenaSegGb ∧ f'.arenaMaxGb = cfg.arenaMaxGb := by
  subst hpath
  unfold importInit
  rw [hargs, ok_bind, applyConfigFile, hload]
  exact ⟨_, rfl, rfl, rfl⟩

/-- Whatever config is accepted, either program that is run on it passes the exact sizes to the
DB if and only if the arena's limit is below `2 ^ 34` GB. -/
theorem arenaSizes_exact_iff (R : ConfigReader) (host : ImportHost) (path : String)
    (cfg : ServerConfig) (hload : loadServerConfig R host.files path = .ok cfg) :
    (∀ args, ∃ opt, serverInit R host.files (path :: args) = .ok opt ∧
      (ExactSizes cfg opt.allocDefaults ↔ cfg.arenaMaxGb.toNat < 2 ^ 34)) ∧
    ∀ argv f, parseFlags host argv = .ok f → f.configPath = path →
      ∃ f' opt, importInit R host argv = .ok (f', opt) ∧
        (ExactSizes cfg opt.allocDefaults ↔ cfg.arenaMaxGb.toNat < 2 ^ 34) := by
  constructor
  · intro args
    exact ⟨_, serverInit_ok hload args, exactSizes_iff rfl rfl⟩
  · intro argv f hargs hpath
    obtain ⟨f', hinit, hseg, hmax⟩ := importInit_ok hload hargs hpath
    exact ⟨f', _, hinit, exactSizes_iff (congrArg arenaBytes hseg) (congrArg arenaBytes hmax)⟩

/-! ## An example and sizes too large -/

def exampleConfig (seg max : UInt64) (hpos : 0 < seg) (hle : seg ≤ max) : ServerConfig where
  dbPath := "/data/yikv/mydb"
  listen := "0.0.0.0:9000"
  arenaSegGb := seg
  arenaMaxGb := max
  exclusiveArenaLock := true
  kafkaDefaultBrokers := "broker1:9092,broker2:9092"
  adminUnixSocket := "/var/run/yikv-admin.sock".toList
  dbPath_ne := by decide
  arenaSegGb_pos := hpos
  arenaSegGb_le := hle

/-- 1 GB and 512 GB, in both programs. -/
theorem exampleConfig_exact :
    loadServerConfig (exampleReader 1 512) exampleHost.files "config.json" =
        .ok (exampleConfig 1 512 (by decide) (by decide)) ∧
      (∃ opt, serverInit (exampleReader 1 512) exampleHost.files ["config.json"] = .ok opt ∧
        ExactSizes (exampleConfig 1 512 (by decide) (by decide)) opt.allocDefaults) ∧
      ∃ f opt, importInit (exampleReader 1 512) exampleHost importArgs = .ok (f, opt) ∧
        ExactSizes (exampleConfig 1 512 (by decide) (by decide)) opt.allocDefaults := by
  have hload : loadServerConfig (exampleReader 1 512) exampleHost.files "config.json" =
      .ok (exampleConfig 1 512 (by decide) (by decide)) := rfl
  obtain ⟨hserver, himport⟩ := arenaSizes_exact_iff _ exampleHost "config.json" _ hload
  obtain ⟨opt, hopt, hexact⟩ := hserver []
  obtain ⟨f, opt', hopt', hexact'⟩ := himport importArgs _ rfl rfl
  exact ⟨hload, ⟨opt, hopt, hexact.mpr (by decide)⟩, f, opt', hopt', hexact'.mpr (by decide)⟩

/-- With `2 ^ 34` GB for both the config is accepted, and each program passes two zeros. -/
theorem hugeConfig_wraps :
    loadServerConfig (exampleReader 17179869184 17179869184) exampleHost.files "config.json" =
        .ok (exampleConfig 17179869184 17179869184 (by decide) (by decide)) ∧
      (∃ opt, serverInit (exampleReader 17179869184 17179869184) exampleHost.files ["config.json"] =
          .ok opt ∧
        opt.allocDefaults.segmentSize = 0 ∧ opt.allocDefaults.maxArenaSize = 0 ∧
        ¬ ExactSizes (exampleConfig 17179869184 17179869184 (by decide) (by decide))
          opt.allocDefaults) ∧
      ∃ f opt, importInit (exampleReader 17179869184 17179869184) exampleHost importArgs =
          .ok (f, opt) ∧
        opt.allocDefaults.segmentSize = 0 ∧ opt.allocDefaults.maxArenaSize = 0 ∧
        ¬ ExactSizes (exampleConfig 17179869184 17179869184 (by decide) (by decide))
          opt.allocDefaults := by
  refine ⟨rfl, ⟨_, rfl, by decide, by decide, fun h => ?_⟩,
    ⟨_, _, rfl, by decide, by decide, fun h => ?_⟩⟩
  · exact absurd h.pos (by decide)
  · exact absurd h.pos (by decide)

end YikvServer.Config
