import ProviderNest.TargetList.Basic

/-!
# The built-in target list

The files that are migrated where no list is given or found: entry points, tests and test helpers
of a client library whose configurations were written in the flat shape.
-/

namespace ProviderNest.TargetList

/-- The paths of the built-in list. -/
def builtInPaths : List String :=
  ["src/__tests__/createClient.test.ts",
   "src/__tests__/exports.test.ts",
   "src/client/__tests__/bridgeClient.test.ts",
   "src/client/__tests__/bridgeClientDisposal.test.ts",
   "src/client/__tests__/bridgeClientMcpIntegration.test.ts",
   "src/client/__tests__/bridgeClientRegistries.test.ts",
   "src/client/__tests__/bridgeClientToolIntegration.test.ts",
   "src/client/__tests__/bridgeClientErrorLogging.test.ts",
   "src/__tests__/e2e/anthropic/chat.e2e.test.ts",
   "src/__tests__/e2e/anthropic/mcpTools.e2e.test.ts",
   "src/__tests__/e2e/anthropic/stdioMcpTools.e2e.test.ts",
   "src/__tests__/e2e/google/chat.e2e.test.ts",
   "src/__tests__/e2e/google/mcpTools.e2e.test.ts",
   "src/__tests__/e2e/google/stdioMcpTools.e2e.test.ts",
   "src/__tests__/e2e/openai/chat.e2e.test.ts",
   "src/__tests__/e2e/openai/mcpTools.e2e.test.ts",
   "src/__tests__/e2e/openai/stdioMcpTools.e2e.test.ts",
   "src/__tests__/e2e/xai/chat.e2e.test.ts",
   "src/__tests__/e2e/xai/mcpTools.e2e.test.ts",
   "src/__tests__/e2e/xai/stdioMcpTools.e2e.test.ts",
   "src/__tests__/e2e/shared/anthropicModelHelpers.ts",
   "src/__tests__/e2e/shared/createMcpTestClient.ts",
   "src/__tests__/e2e/shared/createMcpTestConfig.ts",
   "src/__tests__/e2e/shared/googleModelHelpers.ts",
   "src/__tests__/e2e/shared/mcpTestHelpers.test.ts",
   "src/__tests__/e2e/shared/openAIModelHelpers.ts",
   "src/__tests__/e2e/shared/rateLimiting/createRateLimitedTestClient.ts",
   "src/__tests__/e2e/shared/xaiModelHelpers.ts",
   "src/core/agent/cancellation/__tests__/cancellationIntegration.test.ts",
   "src/core/config/__tests__/bridgeConfigSchema.test.ts",
   "src/core/config/__tests__/rateLimitingConfig.test.ts",
   "src/index.ts",
   "src/client/index.ts"]

/-- The built-in list, which has no root of its own. -/
def builtIn : TargetList := ⟨none, builtInPaths.map Path.mk⟩

end ProviderNest.TargetList
