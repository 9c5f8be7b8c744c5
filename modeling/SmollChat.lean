import SmollChat.Library.Transition
import SmollChat.Model.SmollAI
import SmollChat.Model.ByteEngine
import SmollChat.Model.ModelsRepository
import SmollChat.Model.ViewModel
import SmollChat.Verification.KvCache.Mask
import SmollChat.Verification.KvCache.Session
import SmollChat.Verification.LlmChat.Sessions
import SmollChat.Verification.LlmChat.Texts
import SmollChat.Verification.LLMInference.Conversation
import SmollChat.Verification.LLMInference.Context
import SmollChat.Verification.LLMInference.Bos
import SmollChat.Verification.LLMInference.Batches
import SmollChat.Verification.LLMInference.Cancels
import SmollChat.Verification.LLMInference.Decodes
import SmollChat.Verification.LLMInference.Buffers
import SmollChat.Verification.LLMInference.Exchanges
import SmollChat.Verification.LLMInference.Finished
import SmollChat.Verification.LLMInference.Messages
import SmollChat.Verification.LLMInference.Prompts
import SmollChat.Verification.LLMInference.Responses
import SmollChat.Verification.LLMInference.Slices
import SmollChat.Verification.LLMInference.Truncation
import SmollChat.Verification.LLMInference.Texts
import SmollChat.Verification.LLMInference.Failures
import SmollChat.Verification.LLMInference.Standalone
import SmollChat.Verification.LLMInference.Filter
import SmollChat.Verification.LLMInference.Cleaning
import SmollChat.Verification.ModelsRepository.Files
import SmollChat.Verification.ModelsRepository.Imports
import SmollChat.Verification.SmollAI.Handle
import SmollChat.Verification.SmollAI.Characters
import SmollChat.Verification.SmollAI.Collections
import SmollChat.Verification.SmollAI.Exceptions
import SmollChat.Verification.SmollAI.Stream
import SmollChat.Verification.SmollAI.Endings
import SmollChat.Verification.ViewModel.Agreement
import SmollChat.Verification.ViewModel.Busy
import SmollChat.Verification.ViewModel.Cycles
import SmollChat.Verification.ViewModel.Deletion
import SmollChat.Verification.ViewModel.Isolation
import SmollChat.Verification.ViewModel.Loads
import SmollChat.Verification.ViewModel.Noninterference
import SmollChat.Verification.ViewModel.Ownership
import SmollChat.Verification.ViewModel.Replies
import SmollChat.Verification.ViewModel.Turns
import SmollChat.Verification.ViewModel.Updates
import SmollChat.Verification.ViewModel.Saves
