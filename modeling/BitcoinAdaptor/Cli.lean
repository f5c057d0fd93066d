import Mathlib.Data.Option.Defs

/-!
# Loading the configuration

`Cli::get_config` opens the file named on the command line, deserializes a `Config` from it and
checks one field: a `socks_proxy`, when set, must parse as a URI that has a scheme, a host and a
port. The file system, `serde_json` and the URI parser are not part of the adapter; they are the
fields of `ConfigLoader`, and the model is the order in which `get_config` calls them and the
errors it builds.

The configuration is accepted exactly when the file opens, deserializes, and its socks proxy is
absent or valid (`Cli.getConfig_eq_ok_iff`); the config returned is the one deserialized, with
nothing changed. Every error names the stage that failed: `Io` for the file, `Deserialize` for
the JSON, and `Validation` only for a configured socks proxy, with a text that says whether it did
not parse or lacks a part (`Cli.getConfig_eq_error`).

## Main definitions

* `Uri`, `CliError`, `ConfigLoader`, `Cli`.
* `Cli.getConfig`: `Cli::get_config`, and `ConfigLoader.checkSocksProxy`, its check of the proxy.
* `ConfigLoader.ProxyValid`: the check `get_config` makes of a configuration.

## Main results

* `Cli.getConfig_eq_ok_iff`: which configurations are accepted.
* `Cli.getConfig_eq_error`: every error and what caused it.

## References

`src/src/cli.rs`, lines 8–49.
-/

namespace BitcoinAdaptor

/-- `http::Uri`, as far as `get_config` reads it: its scheme, host and port, each optional. -/
structure Uri where
  scheme : Option String
  host : Option String
  port : Option UInt16
  deriving DecidableEq, Repr

/-- `CliError`. `Io` carries the error of opening the file, `Deserialize` the text of the
`serde_json` error (`err.to_string()`), and `Validation` the text of a failed check. -/
inductive CliError (IoError : Type)
  | io (err : IoError)
  | deserialize (msg : String)
  | validation (msg : String)
  deriving DecidableEq, Repr

/-- What `get_config` calls and does not define: `File::open`, `serde_json::from_reader` with its
error already turned into its text, the `socks_proxy` field of `Config`, and `str::parse::<Uri>`. -/
structure ConfigLoader (Path File IoError Config : Type) where
  fileOpen : Path → Except IoError File
  fromReader : File → Except String Config
  socksProxy : Config → Option String
  parseUri : String → Option Uri

/-- `Cli`: the path of the configuration file. -/
structure Cli (Path : Type) where
  config : Path

variable {Path File IoError Config : Type} (L : ConfigLoader Path File IoError Config)

namespace ConfigLoader

/-- The block of `get_config` under `// Validate proxy URL.`: a socks proxy, when set, must parse
as a URI with a scheme, a host and a port. -/
def checkSocksProxy (config : Config) : Except (CliError IoError) Config :=
  match L.socksProxy config with
  | none => .ok config
  | some socksProxy =>
    match L.parseUri socksProxy with
    | none => .error (.validation "Failed to parse socks_proxy url")
    | some uri =>
      if uri.scheme.isNone || uri.host.isNone || uri.port.isNone then
        .error (.validation "Make sure socks proxy url contains (scheme,host,port)")
      else .ok config

/-- The check `get_config` makes, as a proposition: the socks proxy, if set, parses to a URI with
a scheme, a host and a port. -/
def ProxyValid (config : Config) : Prop :=
  ∀ socksProxy ∈ L.socksProxy config, ∃ uri ∈ L.parseUri socksProxy,
    uri.scheme.isSome ∧ uri.host.isSome ∧ uri.port.isSome

instance (config : Config) : Decidable (L.ProxyValid config) :=
  @Option.decidableForallMem _ _
    (fun socksProxy => Option.decidableExistsMem (L.parseUri socksProxy)) _

variable {L}

/-- The check passes exactly on a configuration whose socks proxy is absent or valid, and
returns it unchanged. -/
theorem checkSocksProxy_eq_ok_iff (config c : Config) :
    (L.checkSocksProxy config : Except (CliError IoError) Config) = .ok c ↔
      config = c ∧ L.ProxyValid config := by
  unfold checkSocksProxy ProxyValid
  rcases L.socksProxy config with _ | socksProxy
  · simp
  rcases hu : L.parseUri socksProxy with _ | ⟨_ | _, _ | _, _ | _⟩ <;> simp [hu]

/-- The check fails only on a configured socks proxy, with a text that says whether it did not
parse or lacks a scheme, a host or a port. -/
theorem checkSocksProxy_eq_error {config : Config} {err : CliError IoError}
    (h : L.checkSocksProxy config = .error err) : ∃ socksProxy,
      L.socksProxy config = some socksProxy ∧
      (L.parseUri socksProxy = none ∧ err = .validation "Failed to parse socks_proxy url" ∨
        ∃ uri, L.parseUri socksProxy = some uri ∧
          (uri.scheme = none ∨ uri.host = none ∨ uri.port = none) ∧
          err = .validation "Make sure socks proxy url contains (scheme,host,port)") := by
  unfold checkSocksProxy at h
  rcases hs : L.socksProxy config with _ | socksProxy <;> simp only [hs] at h
  · cases h
  refine ⟨socksProxy, rfl, ?_⟩
  rcases hu : L.parseUri socksProxy with _ | uri <;> simp only [hu] at h
  · exact .inl ⟨rfl, (Except.error.inj h).symm⟩
  by_cases hp : (uri.scheme.isNone || uri.host.isNone || uri.port.isNone) = true
  · rw [if_pos hp] at h
    simp only [Bool.or_eq_true, Option.isNone_iff_eq_none] at hp
    exact .inr ⟨uri, rfl, or_assoc.1 hp, (Except.error.inj h).symm⟩
  · rw [if_neg hp] at h
    cases h

end ConfigLoader

/-- `Cli::get_config`. -/
def Cli.getConfig (cli : Cli Path) : Except (CliError IoError) Config := do
  let file ← (L.fileOpen cli.config).mapError .io
  let config ← (L.fromReader file).mapError .deserialize
  L.checkSocksProxy config

namespace Cli

variable {L} {cli : Cli Path}

/-- `get_config` opens the file, deserializes it, then checks the socks proxy, stopping at the
first error. -/
theorem getConfig_eq : cli.getConfig L =
    match L.fileOpen cli.config with
    | .error e => .error (.io e)
    | .ok file =>
      match L.fromReader file with
      | .error msg => .error (.deserialize msg)
      | .ok config => L.checkSocksProxy config := by
  unfold getConfig
  cases L.fileOpen cli.config with
  | error e => rfl
  | ok file =>
    show ((L.fromReader file).mapError CliError.deserialize).bind L.checkSocksProxy =
      match L.fromReader file with
      | .error msg => .error (.deserialize msg)
      | .ok config => L.checkSocksProxy config
    cases L.fromReader file <;> rfl

/-- `get_config` accepts a configuration exactly when the file opens, deserializes to it, and
its socks proxy, if set, parses to a URI with a scheme, a host and a port; the configuration is
returned as deserialized. -/
theorem getConfig_eq_ok_iff (config : Config) :
    cli.getConfig L = .ok config ↔ ∃ file, L.fileOpen cli.config = .ok file ∧
      L.fromReader file = .ok config ∧ L.ProxyValid config := by
  rw [getConfig_eq]
  rcases L.fileOpen cli.config with e | file
  · simp
  rcases hr : L.fromReader file with msg | config'
  · simp [hr]
  simp only [ConfigLoader.checkSocksProxy_eq_ok_iff, Except.ok.injEq, exists_eq_left', hr]
  exact and_congr_right fun he => by rw [he]

/-- Every error of `get_config` names the stage that failed: `Io` with the error of opening the
file, `Deserialize` with the text of the `serde_json` error of a file that opened, or, for a file
that deserialized, `Validation` of its configured socks proxy, with a text that says whether it
did not parse or lacks a scheme, a host or a port. -/
theorem getConfig_eq_error {err : CliError IoError} (h : cli.getConfig L = .error err) :
    (∃ e, L.fileOpen cli.config = .error e ∧ err = .io e) ∨
    (∃ file msg, L.fileOpen cli.config = .ok file ∧ L.fromReader file = .error msg ∧
      err = .deserialize msg) ∨
    (∃ file config socksProxy, L.fileOpen cli.config = .ok file ∧
      L.fromReader file = .ok config ∧ L.socksProxy config = some socksProxy ∧
      (L.parseUri socksProxy = none ∧ err = .validation "Failed to parse socks_proxy url" ∨
        ∃ uri, L.parseUri socksProxy = some uri ∧
          (uri.scheme = none ∨ uri.host = none ∨ uri.port = none) ∧
          err = .validation "Make sure socks proxy url contains (scheme,host,port)")) := by
  rw [getConfig_eq] at h
  rcases hf : L.fileOpen cli.config with e | file <;> simp only [hf] at h
  · exact .inl ⟨e, rfl, (Except.error.inj h).symm⟩
  rcases hr : L.fromReader file with msg | config <;> simp only [hr] at h
  · exact .inr (.inl ⟨file, msg, rfl, hr, (Except.error.inj h).symm⟩)
  obtain ⟨socksProxy, hs, hcause⟩ := ConfigLoader.checkSocksProxy_eq_error h
  exact .inr (.inr ⟨file, config, socksProxy, rfl, hr, hs, hcause⟩)

/-- A loader whose one file deserializes to a configuration with the socks proxy
`socks5://proxy`, which parses to a URI without a port. -/
def sampleLoader : ConfigLoader Unit String Unit (Option String) where
  fileOpen _ := .ok "socks5://proxy"
  fromReader file := .ok (some file)
  socksProxy config := config
  parseUri _ := some ⟨some "socks5", some "proxy", none⟩

example : (Cli.mk ()).getConfig sampleLoader =
    .error (.validation "Make sure socks proxy url contains (scheme,host,port)") :=
  rfl

end Cli

end BitcoinAdaptor
